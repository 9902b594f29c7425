import BoaGateway.MibText
import BoaGateway.TextBuffer

/-!
# Saving an XML settings file

`_save_xml_file` for the settings of the process itself. Each value of the MIB table and each
top member of a record goes to the file on its own, but the units of an object are collected
with all their members, and so are the lines around the records. The build neither encrypts the
file nor its strings, and memory is taken for granted.
-/

namespace XmlSave

open ByteBlocks MibTypes MibChain MibTable Texts TextFiles MibText XmlLines XmlLoad TextBuffer

variable {T : Tables}

def outStrBufLen : Nat := 65534

abbrev Out := Writer outStrBufLen

/-- What a save is given: the name of the file, the lines of the skip file, the names of the
entries, what a new value buffer holds, and `inet_ntop`. -/
structure SaveCall (T : Tables) where
  savefile : Bytes
  skipExport : List Bytes
  mibName : MibTableEntry → Bytes
  buffer : (e : MibTableEntry) → Block e.size
  inet : InetNtop

/-- The bytes that `mib_to_string` looks at; strings have an end of their own. -/
def readWidth (type : TypeT) (size : Int) : Nat :=
  match type with
  | .byte => 1
  | .word => 2
  | .dword | .integer | .ia => 4
  | .ia6 => 16
  | .byte5 | .byte6 | .byte13 | .byteArray => size.toNat
  | .wordArray => 2 * (u32OfInt size / 2)
  | .intArray => 4 * (u32OfInt size / 4)
  | .string | .encryptString | .byte64 | .object => 0

/-- `mib_to_string` for an address of an object, into the local buffer of `print_name_value`. -/
def mibToString {n : Nat} (N : InetNtop) (entry : Block n) (addr : Int) (type : TypeT)
    (size : Int) : Option Bytes :=
  if addr < 0 then none
  else
    (if type.isString then (strcpyFrom entry addr.toNat).map cstr
      else
        (entry.read addr.toNat (readWidth type size)).bind fun value =>
          (mibToStringEx N value type).map (·.2)).filter fun string =>
      decide (string.length < maxMibValStrLen)

def valueLine (name string : Bytes) : Bytes :=
  ascii "<Value Name=\"" ++ name ++ ascii "\" Value=\"" ++ string ++ ascii "\"/>\n"

def chainLine (name : Bytes) (index : Nat) : Bytes :=
  ascii "<chain chainName=\"" ++ name ++ ascii "\"> <!--index=" ++ numeral 10 index ++
    ascii "-->\n"

def emptyChainLine (name : Bytes) : Bytes :=
  ascii "<chain chainName=\"" ++ name ++ ascii "\">\n"

def chainEnd : Bytes := ascii "</chain>\n"

/-- `TAB_DEPTH`. -/
def tabDepth (depth : Nat) : Out → Option Out :=
  each (fun _ w => w.snprintf (ascii " ")) (List.range depth)

def printNameValue {n : Nat} (N : InetNtop) (name : Bytes) (entry : Block n) (addr : Int)
    (type : TypeT) (size : Int) (depth : Nat) (w : Out) : Option Out :=
  match mibToString N entry addr type size with
  | none => none
  | some string => (tabDepth depth w).bind fun w => w.snprintf (valueLine name string)

/-- The units of an object. -/
def entryNum (objDesc : List ChainMember) (size : Int) : Nat :=
  if unitSize objDesc = 0 then 0 else u32OfInt (size.tdiv (unitSize objDesc))

mutual

/-- `print_chain_member` and, for an object, the loop of `print_chain_obj` around its members. -/
def printChainMember {n : Nat} (N : InetNtop) (entry : Block n) (desc : ChainMember) (addr : Int)
    (depth : Nat) (w : Out) : Option Out :=
  match desc with
  | .mk name type _ size (some objDesc) =>
    if type = .object then
      (each (fun i w =>
        (((tabDepth depth w).bind fun w => w.snprintf (chainLine name i)).bind fun w =>
          printChainObj N entry objDesc (addr + unitSize objDesc * i) (depth + 1) w).bind fun w =>
            (tabDepth depth w).bind fun w => w.snprintf chainEnd)
        (List.range (entryNum objDesc size)) w).bind fun w => w.flush
    else printNameValue N name entry addr type size depth w
  | .mk name type _ size none =>
    if type = .object then w.flush
    else printNameValue N name entry addr type size depth w

/-- The members of one unit. -/
def printChainObj {n : Nat} (N : InetNtop) (entry : Block n) (objDesc : List ChainMember)
    (pObj : Int) (depth : Nat) (w : Out) : Option Out :=
  match objDesc with
  | [] => some w
  | desc :: objDesc =>
    (printChainMember N entry desc (pObj + desc.offset) depth w).bind fun w =>
      printChainObj N entry objDesc pObj depth w

end

def confOnXmlfile : Bytes := ascii "/var/config/config.xml"
def confOnXmlfileHs : Bytes := ascii "/var/config/config_hs.xml"

def checkMibSkip (call : SaveCall T) (mibname : Bytes) : Bool :=
  if call.savefile = confOnXmlfileHs ∨ call.savefile = confOnXmlfile then false
  else call.skipExport.contains mibname

/-- `MIB_GET` into the value buffer, which keeps what it holds if there is no value. -/
def mibGetBuffer (call : SaveCall T) (r : Ram T) (e : MibTableEntry) : Option (Block e.size) :=
  match mibGet r e.id with
  | none => none
  | some none => some (call.buffer e)
  | some (some value) => (call.buffer e).write 0 value

/-- The loop over the MIB table. -/
def saveTable (call : SaveCall T) (cnfType : ConfigData) (r : Ram T) : Out → Option Out :=
  each (fun e w =>
    if e.mibType ≠ cnfType then some w
    else
      match mibGetBuffer call r e with
      | none => none
      | some buffer =>
        (if checkMibSkip call (call.mibName e) then some w
          else printNameValue call.inet (call.mibName e) buffer 0 e.type e.size 0 w).bind
            fun w => w.flush) T.mibTable

/-- The members of a record, each with a flush. -/
def saveMembers {n : Nat} (N : InetNtop) (entry : Block n) : List ChainMember → Out → Option Out :=
  each fun desc w => (printChainMember N entry desc desc.offset 1 w).bind fun w => w.flush

/-- One record of a chain. -/
def saveRecord (call : SaveCall T) (r : Ram T) (e : ChainRecordTableEntry)
    (recDesc : List ChainMember) (j : Nat) (w : Out) : Option Out :=
  (w.snprintf (chainLine e.name j)).bind fun w =>
    match mibChainGet r e.id j with
    | none => none
    | some (i, k) =>
      match (r.chains i)[k]? with
      | none => none
      | some entry =>
        (if checkMibSkip call e.name then some w else saveMembers call.inet entry recDesc w).bind
          fun w => w.snprintf chainEnd

/-- The loop over the chains. -/
def saveChains (call : SaveCall T) (cnfType : ConfigData) (r : Ram T) : Out → Option Out :=
  each (fun (e : ChainRecordTableEntry) w =>
    if e.mibType ≠ cnfType then some w
    else
      match e.recordDesc with
      | none => (w.snprintf (emptyChainLine e.name)).bind fun w => w.snprintf chainEnd
      | some recDesc =>
        if mibChainTotal r e.id = 0 then
          (w.snprintf (emptyChainLine e.name)).bind fun w => w.snprintf chainEnd
        else each (saveRecord call r e recDesc) (List.range (mibChainTotal r e.id)) w) T.chainTable

/-- Everything between the opening of the file and the flush of the stream. -/
def saveText (call : SaveCall T) (cnfType : ConfigData) (header trailer : Bytes) (r : Ram T)
    (w : Out) : Option Out :=
  ((((w.snprintf (header ++ [newline])).bind fun w => saveTable call cnfType r w).bind fun w =>
    saveChains call cnfType r w).bind fun w => w.snprintf (trailer ++ [newline])).bind fun w =>
      w.flush

/-- `bc = 0; strbuf[bc] = '\0'`, with a file that is empty. -/
def startOutput (strbuf : Block (outStrBufLen + 1)) : Option Out :=
  (strbuf.write 0 [0]).map fun strbuf => { strbuf, bc := 0, file := [], top := 0 }

/-- `_save_xml_file` with the settings that are in place while it writes: for a part of the
current setting, the others have been loaded from the old file. In the result, `none` is a
return without a file. -/
def saveXmlFile (call : SaveCall T) (cnfType : ConfigData) (range : ConfigMib)
    (strbuf : Block (outStrBufLen + 1)) (r : Ram T) : Option (Option Out) :=
  match cnfType with
  | .hw =>
    if range ≠ .all then some none
    else ((startOutput strbuf).bind (saveText call .hw configHeaderHs configTrailerHs r)).map some
  | .current =>
    ((startOutput strbuf).bind (saveText call .current configHeader configTrailer r)).map some
  | _ => some none

def line (text : Bytes) : Option (List Event) := some [.print text]

def flushed : Option (List Event) := some [.flush]

def tabEvents (depth : Nat) : Option (List Event) :=
  eachEvents (fun _ => line (ascii " ")) (List.range depth)

/-- The line of a value; there is none if the text of the value cannot be made. -/
def valueEvents {n : Nat} (N : InetNtop) (name : Bytes) (entry : Block n) (addr : Int)
    (type : TypeT) (size : Int) (depth : Nat) : Option (List Event) :=
  match mibToString N entry addr type size with
  | none => none
  | some string => andThen (tabEvents depth) (line (valueLine name string))

mutual

def memberEvents {n : Nat} (N : InetNtop) (entry : Block n) (desc : ChainMember) (addr : Int)
    (depth : Nat) : Option (List Event) :=
  match desc with
  | .mk name type _ size (some objDesc) =>
    if type = .object then
      andThen
        (eachEvents (fun (i : Nat) =>
          andThen
            (andThen (andThen (tabEvents depth) (line (chainLine name i)))
              (objEvents N entry objDesc (addr + unitSize objDesc * i) (depth + 1)))
            (andThen (tabEvents depth) (line chainEnd)))
          (List.range (entryNum objDesc size)))
        flushed
    else valueEvents N name entry addr type size depth
  | .mk name type _ size none =>
    if type = .object then flushed else valueEvents N name entry addr type size depth

def objEvents {n : Nat} (N : InetNtop) (entry : Block n) (objDesc : List ChainMember)
    (pObj : Int) (depth : Nat) : Option (List Event) :=
  match objDesc with
  | [] => some []
  | desc :: objDesc =>
    andThen (memberEvents N entry desc (pObj + desc.offset) depth)
      (objEvents N entry objDesc pObj depth)

end

def tableEvents (call : SaveCall T) (cnfType : ConfigData) (r : Ram T) : Option (List Event) :=
  eachEvents (fun e =>
    if e.mibType ≠ cnfType then some []
    else
      match mibGetBuffer call r e with
      | none => none
      | some buffer =>
        andThen
          (if checkMibSkip call (call.mibName e) then some []
            else valueEvents call.inet (call.mibName e) buffer 0 e.type e.size 0)
          flushed) T.mibTable

def membersEvents {n : Nat} (N : InetNtop) (entry : Block n) (recDesc : List ChainMember) :
    Option (List Event) :=
  eachEvents (fun desc => andThen (memberEvents N entry desc desc.offset 1) flushed) recDesc

def recordEvents (call : SaveCall T) (r : Ram T) (e : ChainRecordTableEntry)
    (recDesc : List ChainMember) (j : Nat) : Option (List Event) :=
  andThen (line (chainLine e.name j))
    (match mibChainGet r e.id j with
    | none => none
    | some (i, k) =>
      match (r.chains i)[k]? with
      | none => none
      | some entry =>
        andThen
          (if checkMibSkip call e.name then some [] else membersEvents call.inet entry recDesc)
          (line chainEnd))

def chainsEvents (call : SaveCall T) (cnfType : ConfigData) (r : Ram T) : Option (List Event) :=
  eachEvents (fun (e : ChainRecordTableEntry) =>
    if e.mibType ≠ cnfType then some []
    else
      match e.recordDesc with
      | none => andThen (line (emptyChainLine e.name)) (line chainEnd)
      | some recDesc =>
        if mibChainTotal r e.id = 0 then andThen (line (emptyChainLine e.name)) (line chainEnd)
        else eachEvents (recordEvents call r e recDesc) (List.range (mibChainTotal r e.id)))
    T.chainTable

/-- The texts and flushes of a whole file up to the last flush. -/
def textEvents (call : SaveCall T) (cnfType : ConfigData) (header trailer : Bytes) (r : Ram T) :
    Option (List Event) :=
  andThen
    (andThen (andThen (line (header ++ [newline])) (tableEvents call cnfType r))
      (chainsEvents call cnfType r))
    (line (trailer ++ [newline]))

def saveEvents (call : SaveCall T) (cnfType : ConfigData) (r : Ram T) : Option (List Event) :=
  match cnfType with
  | .hw => textEvents call .hw configHeaderHs configTrailerHs r
  | _ => textEvents call .current configHeader configTrailer r

/-- A text that ends as the format says. -/
theorem prints_line {text : Bytes} (rest tail : Bytes) (htext : text = rest ++ tail)
    (htail : tail ≠ [] ∧ tail.getLast? ≠ some 0) :
    Prints (fun w : Out => w.snprintf text) (line text) := by
  refine prints_text ?_ ?_
  · rw [htext]
    exact List.append_ne_nil_of_right_ne_nil _ htail.1
  · rw [htext, List.getLast?_append_of_ne_nil _ htail.1]
    exact htail.2

theorem prints_header (header : Bytes) :
    Prints (fun w : Out => w.snprintf (header ++ [newline])) (line (header ++ [newline])) :=
  prints_line header [newline] rfl (by decide)

theorem prints_valueLine (name string : Bytes) :
    Prints (fun w : Out => w.snprintf (valueLine name string)) (line (valueLine name string)) :=
  prints_line _ (ascii "\"/>\n") rfl (by decide)

theorem prints_chainLine (name : Bytes) (index : Nat) :
    Prints (fun w : Out => w.snprintf (chainLine name index)) (line (chainLine name index)) :=
  prints_line _ (ascii "-->\n") rfl (by decide)

theorem prints_emptyChainLine (name : Bytes) :
    Prints (fun w : Out => w.snprintf (emptyChainLine name)) (line (emptyChainLine name)) :=
  prints_line _ (ascii "\">\n") rfl (by decide)

theorem prints_chainEnd : Prints (fun w : Out => w.snprintf chainEnd) (line chainEnd) :=
  prints_line [] chainEnd rfl (by decide)

theorem prints_tabDepth (depth : Nat) : Prints (tabDepth depth) (tabEvents depth) :=
  .each (fun _ => prints_line [] (ascii " ") rfl (by decide)) _

theorem prints_printNameValue {n : Nat} (N : InetNtop) (name : Bytes) (entry : Block n)
    (addr : Int) (type : TypeT) (size : Int) (depth : Nat) :
    Prints (printNameValue N name entry addr type size depth)
      (valueEvents N name entry addr type size depth) := by
  unfold printNameValue valueEvents
  cases mibToString N entry addr type size with
  | none => exact prints_none
  | some string => exact (prints_tabDepth depth).andThen (prints_valueLine name string)

mutual

theorem prints_printChainMember {n : Nat} (N : InetNtop) (entry : Block n) (desc : ChainMember)
    (addr : Int) (depth : Nat) :
    Prints (fun w => printChainMember N entry desc addr depth w)
      (memberEvents N entry desc addr depth) := by
  cases desc with
  | mk name type offset size recordDesc =>
    cases recordDesc with
    | none =>
      simp only [printChainMember, memberEvents]
      by_cases hobj : type = .object
      · simp only [if_pos hobj]
        exact prints_flush
      · simp only [if_neg hobj]
        exact prints_printNameValue N name entry addr type size depth
    | some objDesc =>
      simp only [printChainMember, memberEvents]
      by_cases hobj : type = .object
      · simp only [if_pos hobj]
        refine Prints.andThen (.each (fun i => ?_) _) prints_flush
        exact (((prints_tabDepth depth).andThen (prints_chainLine name i)).andThen
          (prints_printChainObj N entry objDesc _ _)).andThen
          ((prints_tabDepth depth).andThen prints_chainEnd)
      · simp only [if_neg hobj]
        exact prints_printNameValue N name entry addr type size depth

theorem prints_printChainObj {n : Nat} (N : InetNtop) (entry : Block n)
    (objDesc : List ChainMember) (pObj : Int) (depth : Nat) :
    Prints (fun w => printChainObj N entry objDesc pObj depth w)
      (objEvents N entry objDesc pObj depth) := by
  cases objDesc with
  | nil =>
    simp only [printChainObj, objEvents]
    exact prints_nothing
  | cons desc objDesc =>
    simp only [printChainObj, objEvents]
    exact (prints_printChainMember N entry desc _ depth).andThen
      (prints_printChainObj N entry objDesc pObj depth)

end

/-- One value of the table, with its flush. -/
theorem prints_value (call : SaveCall T) (r : Ram T) (e : MibTableEntry) :
    Prints
      (fun w => match mibGetBuffer call r e with
        | none => none
        | some buffer =>
          (if checkMibSkip call (call.mibName e) then some w
            else printNameValue call.inet (call.mibName e) buffer 0 e.type e.size 0 w).bind
              fun w => w.flush)
      (match mibGetBuffer call r e with
        | none => none
        | some buffer =>
          andThen
            (if checkMibSkip call (call.mibName e) then some []
              else valueEvents call.inet (call.mibName e) buffer 0 e.type e.size 0)
            flushed) := by
  cases mibGetBuffer call r e with
  | none => exact prints_none
  | some buffer =>
    refine Prints.andThen ?_ prints_flush
    by_cases hskip : checkMibSkip call (call.mibName e) = true
    · simp only [if_pos hskip]
      exact prints_nothing
    · simp only [if_neg hskip]
      exact prints_printNameValue _ _ _ _ _ _ _

theorem prints_saveTable (call : SaveCall T) (cnfType : ConfigData) (r : Ram T) :
    Prints (saveTable call cnfType r) (tableEvents call cnfType r) := by
  refine .each (fun e => ?_) _
  by_cases htype : e.mibType ≠ cnfType
  · simp only [if_pos htype]
    exact prints_nothing
  · simp only [if_neg htype]
    exact prints_value call r e

theorem prints_saveMembers {n : Nat} (N : InetNtop) (entry : Block n)
    (recDesc : List ChainMember) :
    Prints (saveMembers N entry recDesc) (membersEvents N entry recDesc) :=
  .each (fun desc => (prints_printChainMember N entry desc _ 1).andThen prints_flush) _

theorem prints_saveRecord (call : SaveCall T) (r : Ram T) (e : ChainRecordTableEntry)
    (recDesc : List ChainMember) (j : Nat) :
    Prints (saveRecord call r e recDesc j) (recordEvents call r e recDesc j) := by
  refine (prints_chainLine e.name j).andThen ?_
  cases mibChainGet r e.id j with
  | none => exact prints_none
  | some place =>
    dsimp only
    cases (r.chains place.1)[place.2]? with
    | none => exact prints_none
    | some entry =>
      refine Prints.andThen ?_ prints_chainEnd
      by_cases hskip : checkMibSkip call e.name = true
      · simp only [if_pos hskip]
        exact prints_nothing
      · simp only [if_neg hskip]
        exact prints_saveMembers _ _ _

/-- All records of one chain. -/
theorem prints_chain (call : SaveCall T) (r : Ram T) (e : ChainRecordTableEntry) :
    Prints
      (fun w => match e.recordDesc with
        | none => (w.snprintf (emptyChainLine e.name)).bind fun w => w.snprintf chainEnd
        | some recDesc =>
          if mibChainTotal r e.id = 0 then
            (w.snprintf (emptyChainLine e.name)).bind fun w => w.snprintf chainEnd
          else each (saveRecord call r e recDesc) (List.range (mibChainTotal r e.id)) w)
      (match e.recordDesc with
        | none => andThen (line (emptyChainLine e.name)) (line chainEnd)
        | some recDesc =>
          if mibChainTotal r e.id = 0 then andThen (line (emptyChainLine e.name)) (line chainEnd)
          else eachEvents (recordEvents call r e recDesc) (List.range (mibChainTotal r e.id))) := by
  have hempty := (prints_emptyChainLine e.name).andThen prints_chainEnd
  cases e.recordDesc with
  | none => exact hempty
  | some recDesc =>
    dsimp only
    by_cases hzero : mibChainTotal r e.id = 0
    · simp only [if_pos hzero]
      exact hempty
    · simp only [if_neg hzero]
      exact .each (prints_saveRecord call r e recDesc) _

theorem prints_saveChains (call : SaveCall T) (cnfType : ConfigData) (r : Ram T) :
    Prints (saveChains call cnfType r) (chainsEvents call cnfType r) := by
  refine .each (fun e => ?_) _
  by_cases htype : e.mibType ≠ cnfType
  · simp only [if_pos htype]
    exact prints_nothing
  · simp only [if_neg htype]
    exact prints_chain call r e

theorem prints_saveText (call : SaveCall T) (cnfType : ConfigData) (header trailer : Bytes)
    (r : Ram T) : Prints (saveText call cnfType header trailer r)
      (andThen (textEvents call cnfType header trailer r) flushed) :=
  ((((prints_header header).andThen (prints_saveTable call cnfType r)).andThen
    (prints_saveChains call cnfType r)).andThen (prints_header trailer)).andThen prints_flush

theorem startOutput_holds (strbuf : Block (outStrBufLen + 1)) :
    ∃ w, startOutput strbuf = some w ∧ w.file = [] ∧ Holds w [] := by
  obtain ⟨b, hb⟩ : ∃ b, strbuf.write 0 [0] = some b := Block.write_fits _ (by decide)
  refine ⟨{ strbuf := b, bc := 0, file := [], top := 0 }, ?_, rfl, rfl, by decide, rfl,
    Nat.zero_le _⟩
  rw [startOutput, hb]
  rfl

/-- The whole text reaches the file exactly when it fits from flush to flush. -/
theorem saveText_whole_iff (call : SaveCall T) (cnfType : ConfigData) (header trailer : Bytes)
    (r : Ram T) (strbuf : Block (outStrBufLen + 1)) :
    (∃ w es, (startOutput strbuf).bind (saveText call cnfType header trailer r) = some w ∧
      textEvents call cnfType header trailer r = some es ∧ w.top ≤ outStrBufLen ∧
      w.file = texts es) ↔
      ∃ es, textEvents call cnfType header trailer r = some es ∧ Fits outStrBufLen 0 es := by
  obtain ⟨w₀, hstart, hempty, hw₀⟩ := startOutput_holds strbuf
  obtain ⟨hrun, hplain⟩ := prints_saveText call cnfType header trailer r
  rw [hstart, Option.bind_some, hrun w₀]
  have hwhole : ∀ es, textEvents call cnfType header trailer r = some es →
      ((∃ w, run (es ++ [.flush]) w₀ = some w ∧ w.top ≤ outStrBufLen ∧ w.file = texts es) ↔
        Fits outStrBufLen 0 es) := by
    intro es hes
    have hmem : es ++ [.flush] ∈ andThen (textEvents call cnfType header trailer r) flushed :=
      andThen_eq_some_iff.mpr ⟨es, _, hes, rfl, rfl⟩
    have hiff := run_whole_iff
      (show Plain es from fun t ht => hplain _ hmem t (List.mem_append_left _ ht)) hw₀
    rwa [hempty, List.append_nil, List.nil_append] at hiff
  constructor
  · rintro ⟨w, es, hsave, hes, htop, hfile⟩
    rw [hes] at hsave
    exact ⟨es, hes, (hwhole es hes).mp ⟨w, hsave, htop, hfile⟩⟩
  · rintro ⟨es, hes, hfits⟩
    obtain ⟨w, hsave, htop, hfile⟩ := (hwhole es hes).mpr hfits
    refine ⟨w, es, ?_, hes, htop, hfile⟩
    rw [hes]
    exact hsave

/-- The calls that write a file. -/
def WritesFile (cnfType : ConfigData) (range : ConfigMib) : Prop :=
  cnfType = .current ∨ cnfType = .hw ∧ range = .all

/-- While a file is written, the index keeps to the limit of the buffer and the file gets all
texts exactly when the text of every value can be made and every stretch of text between two
flushes is shorter than the limit. -/
theorem file_whole_iff (call : SaveCall T) {cnfType : ConfigData} {range : ConfigMib}
    (hfile : WritesFile cnfType range) (strbuf : Block (outStrBufLen + 1)) (r : Ram T) :
    (∃ w es, saveXmlFile call cnfType range strbuf r = some (some w) ∧
      saveEvents call cnfType r = some es ∧ w.top ≤ outStrBufLen ∧ w.file = texts es) ↔
      ∃ es, saveEvents call cnfType r = some es ∧ Fits outStrBufLen 0 es := by
  rcases hfile with rfl | ⟨rfl, rfl⟩
  · have htext := saveText_whole_iff call .current configHeader configTrailer r strbuf
    simpa only [saveXmlFile, saveEvents, Option.map_eq_some_iff, Option.some.injEq,
      exists_eq_right] using htext
  · have htext := saveText_whole_iff call .hw configHeaderHs configTrailerHs r strbuf
    simpa only [saveXmlFile, saveEvents, ne_eq, not_true_eq_false, if_false,
      Option.map_eq_some_iff, Option.some.injEq, exists_eq_right] using htext

/-- One object that fills the record with units of one byte. -/
def unitsDesc (n : Nat) : List ChainMember :=
  [.mk (ascii "Obj") .object 0 n (some [.mk (ascii "Byte") .byte 0 1 none])]

def unitsEntry (n : Nat) : ChainRecordTableEntry :=
  { id := 3052, mibType := .current, name := ascii "UNIT_TBL", perRecordSize := n,
    tableSize := 8, defaultValue := none, defaultSize := 0, recordDesc := some (unitsDesc n) }

/-- Tables with this chain alone. -/
def unitsTables (n : Nat) (hpos : 0 < n) (hmax : n ≤ 65536) : Tables :=
  { sampleTables with
    mibTable := []
    chainTable := [unitsEntry n]
    mibTable_id := by decide
    mibTable_type := by decide
    mibTable_fits := by decide
    mibTable_disjoint := by decide
    mibTable_default := by decide
    mibTable_unique := by decide
    mibTable_value := by decide
    mibTable_send := by decide
    chainTable_ne := List.cons_ne_nil _ _
    chainTable_id := by simp [unitsEntry]
    chainTable_nodup := List.nodup_singleton _
    chainTable_size := by
      intro e he
      rw [List.mem_singleton.mp he]
      exact ⟨hpos, Nat.lt_of_le_of_lt hmax (by decide), hmax⟩
    chainTable_default := by simp [unitsEntry]
    chainTable_defaultSize := by simp [unitsEntry]
    recordDesc_sums := by
      intro e he desc hdesc
      obtain rfl := List.mem_singleton.mp he
      obtain rfl := Option.some.inj hdesc
      simp only [unitsDesc, SumsFit, MemberSumsFit, ChainMember.size, and_true, true_and]
      omega }

def unitsCall (T : Tables) : SaveCall T where
  savefile := confOnXmlfile
  skipExport := []
  mibName := fun _ => []
  buffer := fun _ => Block.zeros _
  inet := sampleNtop

/-- One record of zero bytes. -/
def unitsRam (n : Nat) (hpos : 0 < n) (hmax : n ≤ 65536) : Ram (unitsTables n hpos hmax) :=
  { emptyRam _ with chains := Function.update (emptyRam _).chains 0 [Block.zeros _] }

/-- The lines of one unit. -/
def unitEvents (i : Nat) : List Event :=
  [.print (ascii " "), .print (chainLine (ascii "Obj") i), .print (ascii " "),
    .print (ascii " "), .print (valueLine (ascii "Byte") (ascii "0")), .print (ascii " "),
    .print chainEnd]

theorem unit_events {n i : Nat} (hi : i < n) (N : InetNtop) :
    andThen
      (andThen (andThen (tabEvents 1) (line (chainLine (ascii "Obj") i)))
        (objEvents N (Block.zeros n) [.mk (ascii "Byte") .byte 0 1 none] (0 + 1 * i) 2))
      (andThen (tabEvents 1) (line chainEnd)) = some (unitEvents i) := by
  have haddr : (0 + 1 * (i : Int) + 0) = i := by omega
  have hread : (Block.zeros n).read i 1 = some ⟨[0], rfl⟩ := by
    rw [Block.read_eq_some_iff]
    refine ⟨hi, ?_⟩
    rw [Block.zeros, List.drop_replicate, List.take_replicate, Nat.min_eq_left (by omega)]
    rfl
  have hvalue : mibToString N (Block.zeros n) (0 + 1 * (i : Int) + 0) .byte 1 =
      some (ascii "0") := by
    rw [haddr, mibToString, if_neg (by omega), Int.toNat_natCast]
    simp only [TypeT.isString, Bool.false_eq_true, if_false, readWidth, hread]
    rfl
  have hmember : memberEvents N (Block.zeros n) (.mk (ascii "Byte") .byte 0 1 none)
      (0 + 1 * (i : Int) + 0) 2 = andThen (tabEvents 2) (line (valueLine (ascii "Byte")
        (ascii "0"))) := by
    rw [memberEvents, if_neg (by decide), valueEvents, hvalue]
  rw [objEvents, ChainMember.offset, hmember, objEvents]
  rfl

theorem unitEvents_length (i : Nat) : 80 ≤ (texts (unitEvents i)).length := by
  have htexts : texts (unitEvents i) = ascii " <chain chainName=\"Obj\"> <!--index=" ++
      (numeral 10 i ++
        ascii "-->\n  <Value Name=\"Byte\" Value=\"0\"/>\n </chain>\n") := by
    simp only [unitEvents, texts, chainLine, List.append_assoc, List.append_nil]
    rfl
  rw [htexts, List.length_append, List.length_append]
  have hlow : 80 = (ascii " <chain chainName=\"Obj\"> <!--index=").length +
      (ascii "-->\n  <Value Name=\"Byte\" Value=\"0\"/>\n </chain>\n").length - 2 := by decide
  omega

/-- All units are printed between two flushes. -/
theorem units_member {n : Nat} (hmax : n ≤ 65536) (N : InetNtop) :
    ∃ es, memberEvents N (Block.zeros n) (.mk (ascii "Obj") .object 0 n
        (some [.mk (ascii "Byte") .byte 0 1 none])) 0 1 = some (es ++ [.flush]) ∧
      Event.flush ∉ es ∧ 80 * n ≤ (texts es).length := by
  have hunit : unitSize [.mk (ascii "Byte") .byte 0 1 none] = 1 := rfl
  have hnum : entryNum [.mk (ascii "Byte") .byte 0 1 none] n = n := by
    rw [entryNum, hunit, if_neg (by decide), Int.tdiv_one, u32OfInt]
    omega
  have hrounds := eachEvents_length
    (e := fun i : Nat => andThen
      (andThen (andThen (tabEvents 1) (line (chainLine (ascii "Obj") i)))
        (objEvents N (Block.zeros n) [.mk (ascii "Byte") .byte 0 1 none] (0 + 1 * i) 2))
      (andThen (tabEvents 1) (line chainEnd))) (k := 80) (l := List.range n)
    fun i hi => ⟨unitEvents i, unit_events (List.mem_range.mp hi) N, by simp [unitEvents],
      unitEvents_length i⟩
  obtain ⟨es, hes, hflush, hlen⟩ := hrounds
  rw [List.length_range] at hlen
  refine ⟨es, ?_, hflush, hlen⟩
  rw [memberEvents, if_pos rfl, hnum, hunit]
  exact andThen_eq_some_iff.mpr ⟨es, [.flush], hes, rfl, rfl⟩

theorem units_saved {n : Nat} (hpos : 0 < n) (hmax : n ≤ 65536) :
    ∃ es, saveEvents (unitsCall _) .current (unitsRam n hpos hmax) =
        some ([.print (configHeader ++ [newline]), .print (chainLine (ascii "UNIT_TBL") 0)] ++
          (es ++ [.flush, .flush, .print chainEnd, .print (configTrailer ++ [newline])])) ∧
      Event.flush ∉ es ∧ 80 * n ≤ (texts es).length := by
  obtain ⟨es, hes, hflush, hlen⟩ := units_member hmax sampleNtop
  refine ⟨es, ?_, hflush, hlen⟩
  have htotal : mibChainTotal (unitsRam n hpos hmax) 3052 = 1 := rfl
  have hskip : checkMibSkip (unitsCall (unitsTables n hpos hmax)) (ascii "UNIT_TBL") = false := rfl
  have hmembers : membersEvents (unitsCall (unitsTables n hpos hmax)).inet (Block.zeros n)
      (unitsDesc n) = some (es ++ [.flush, .flush]) := by
    rw [membersEvents, unitsDesc, eachEvents]
    dsimp only [ChainMember.offset]
    change andThen (andThen (memberEvents sampleNtop _ _ _ _) _) _ = _
    rw [hes]
    simp [andThen, flushed, eachEvents]
  have hrecord : recordEvents (unitsCall _) (unitsRam n hpos hmax) (unitsEntry n) (unitsDesc n) 0 =
      some (.print (chainLine (ascii "UNIT_TBL") 0) ::
        (es ++ [.flush, .flush, .print chainEnd])) := by
    change andThen (line (chainLine (ascii "UNIT_TBL") 0)) (andThen
      (if checkMibSkip (unitsCall (unitsTables n hpos hmax)) (ascii "UNIT_TBL") = true then some []
        else membersEvents (unitsCall (unitsTables n hpos hmax)).inet (Block.zeros n) (unitsDesc n))
      (line chainEnd)) = _
    rw [hskip, if_neg Bool.false_ne_true, hmembers]
    simp [andThen, line]
  have hchains : chainsEvents (unitsCall _) .current (unitsRam n hpos hmax) =
      some (.print (chainLine (ascii "UNIT_TBL") 0) ::
        (es ++ [.flush, .flush, .print chainEnd])) := by
    have hid : ((unitsEntry n).id : Int) = 3052 := rfl
    have htype : ¬ (unitsEntry n).mibType ≠ .current := fun h => h rfl
    have hdesc : (unitsEntry n).recordDesc = some (unitsDesc n) := rfl
    have htable : (unitsTables n hpos hmax).chainTable = [unitsEntry n] := rfl
    have hone : List.range 1 = [0] := rfl
    rw [chainsEvents, htable, eachEvents, eachEvents, if_neg htype, hdesc]
    simp only [hid, htotal, Nat.one_ne_zero, if_false, hone, eachEvents, hrecord]
    simp [andThen]
  have htable : tableEvents (unitsCall _) .current (unitsRam n hpos hmax) = some [] := rfl
  rw [saveEvents, textEvents, htable, hchains]
  · simp [andThen, line]
  · intro h
    cases h

theorem units_lost {n : Nat} (hpos : 0 < n) (hmax : n ≤ 65536) (hn : 1000 ≤ n)
    (strbuf : Block (outStrBufLen + 1)) :
    ¬ ∃ w es, saveXmlFile (unitsCall _) .current .all strbuf (unitsRam n hpos hmax) =
        some (some w) ∧
      saveEvents (unitsCall _) .current (unitsRam n hpos hmax) = some es ∧
      w.top ≤ outStrBufLen ∧ w.file = texts es := by
  rintro ⟨w, es, hsave, hes, htop, hfile⟩
  obtain ⟨w', hsave', hw⟩ := Option.map_eq_some_iff.mp hsave
  cases Option.some.inj hw
  obtain ⟨all, hall, hfits⟩ := (saveText_whole_iff (unitsCall _) .current configHeader
    configTrailer (unitsRam n hpos hmax) strbuf).mp ⟨w, es, hsave', hes, htop, hfile⟩
  obtain ⟨units, hunits, hflush, hlen⟩ := units_saved hpos hmax
  cases Option.some.inj (hall.symm.trans hunits)
  obtain ⟨c, hc, hrest⟩ := hfits.right (by decide)
  have hroom := hrest.left.length_texts hc hflush
  rw [outStrBufLen] at hroom
  omega

/-- A thousand units between two flushes are more than the buffer holds. -/
theorem thousand_units_lost :
    (∃ es, saveEvents (unitsCall _) .current (unitsRam 1000 (by decide) (by decide)) = some es) ∧
      ¬ ∃ w es, saveXmlFile (unitsCall _) .current .all (Block.zeros _)
          (unitsRam 1000 (by decide) (by decide)) = some (some w) ∧
        saveEvents (unitsCall _) .current (unitsRam 1000 (by decide) (by decide)) = some es ∧
        w.top ≤ outStrBufLen ∧ w.file = texts es := by
  obtain ⟨es, hes, -⟩ := units_saved (n := 1000) (by decide) (by decide)
  exact ⟨⟨_, hes⟩, units_lost _ _ (Nat.le_refl 1000) _⟩

/-- Three units are saved whole. -/
theorem three_units_saved :
    ∃ w es, saveXmlFile (unitsCall _) .current .all (Block.zeros _)
        (unitsRam 3 (by decide) (by decide)) = some (some w) ∧
      saveEvents (unitsCall _) .current (unitsRam 3 (by decide) (by decide)) = some es ∧
      w.top ≤ outStrBufLen ∧ w.file = texts es := by
  apply (file_whole_iff _ (Or.inl rfl) _ _).mpr
  have hfits : (saveEvents (unitsCall _) .current (unitsRam 3 (by decide) (by decide))).any
      (fun es => decide (Fits outStrBufLen 0 es)) = true := by
    decide +kernel
  obtain ⟨es, hes, hall⟩ := (Option.any_eq_true _ _).mp hfits
  exact ⟨es, hes, of_decide_eq_true hall⟩

end XmlSave
