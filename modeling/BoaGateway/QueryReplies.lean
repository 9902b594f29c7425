import BoaGateway.StringTermination

/-!
# Queries to the server

The requests that read an entry of one of the two tables, its value or its default.
A good answer is a success exactly when the arguments designate an entry, and then
carries the data of this entry. The handlers end their searches and bound their
indices in different ways, and not all of them give good answers to all arguments.
-/

namespace QueryReplies

open ByteBlocks MibTypes MibChain MibContent MibValue MibTable MsgParser StringTermination

variable {T : Tables}

inductive Query where
  | mibGet | mibInfoId | mibInfoIndex | mibGetDefault
  | chainInfoId | chainInfoIndex | chainGetDefault
  deriving DecidableEq, Repr

def Query.command : Query → Command
  | .mibGet => .mibGet
  | .mibInfoId => .mibInfoId
  | .mibInfoIndex => .mibInfoIndex
  | .mibGetDefault => .mibGetDefault
  | .chainInfoId => .chainInfoId
  | .chainInfoIndex => .chainInfoIndex
  | .chainGetDefault => .mibChainGetDefault

/-- The arguments of the message designate an entry, or a default that exists. -/
def Designates (q : MyMsgBuf T) : Query → Prop
  | .mibGet | .mibInfoId => ∃ e ∈ T.mibTable, (e.id : Int) = q.arg1
  | .mibInfoIndex => 0 ≤ q.arg1 ∧ q.arg1 < T.mibTable.length
  | .mibGetDefault => ∃ e ∈ T.mibTable, (e.id : Int) = q.arg1 ∧ e.defaultValue ≠ none
  | .chainInfoId => ∃ e ∈ T.chainTable, (e.id : Int) = q.arg1
  | .chainInfoIndex => 0 ≤ q.arg1 ∧ q.arg1 < T.chainTable.length
  | .chainGetDefault => ∃ e ∈ T.chainTable, (e.id : Int) = q.arg1 ∧ e.defaultValue ≠ none ∧
      0 ≤ atoi q.mtext.1 ∧ (atoi q.mtext.1).toNat < e.defaultSize / e.perRecordSize

/-- The value of an entry; of a string it is the text with its zero byte. -/
def Value (c : Config T) (e : MibTableEntry) (data : Bytes) : Prop :=
  ∃ m v, valueTbl e.mibType = some m ∧ (c.tbl m).read e.offset e.size = some v ∧
    if e.type.isString then (0 : UInt8) ∈ v.1 ∧ data = cstr v.1 ++ [0] else data = v.1

/-- What an answer carries, in the message or in the shared memory. -/
inductive Content where
  | text (data : Bytes)
  | info (e : EntryImage)
  | record (data : Bytes)

def Carries (s : Configd T) (a : MyMsgBuf T) : Content → Prop
  | .text data => data <+: a.mtext.1
  | .info e => a.info = some e
  | .record data => data <+: s.shm.1

/-- The data of the designated entry. -/
def Entry (s : Configd T) (q : MyMsgBuf T) : Query → Content → Prop
  | .mibGet, .text data => ∃ e ∈ T.mibTable, (e.id : Int) = q.arg1 ∧ Value s.ram.toConfig e data
  | .mibInfoId, .info (.mib e) => e ∈ T.mibTable ∧ (e.id : Int) = q.arg1
  | .mibInfoIndex, .info (.mib e) => 0 ≤ q.arg1 ∧ T.mibTable[q.arg1.toNat]? = some e
  | .mibGetDefault, .text data => ∃ e ∈ T.mibTable, (e.id : Int) = q.arg1 ∧
      ∃ v, e.defaultValue = some v ∧ stringToMib T v e.type e.size = some data
  | .chainInfoId, .info (.chain e) => e ∈ T.chainTable ∧ (e.id : Int) = q.arg1
  | .chainInfoIndex, .info (.chain e) => 0 ≤ q.arg1 ∧ T.chainTable[q.arg1.toNat]? = some e
  | .chainGetDefault, .record data => ∃ e ∈ T.chainTable, (e.id : Int) = q.arg1 ∧
      ∃ v, e.defaultValue = some v ∧ data.length = e.perRecordSize ∧
        data <+: v.drop ((atoi q.mtext.1).toNat * e.perRecordSize)
  | _, _ => False

/-- A good result: a success exactly for a designated entry, whose data it carries, and
nothing is copied without a success. -/
def Good (s : Configd T) (q : MyMsgBuf T) (query : Query)
    (res : Option (Configd T × MyMsgBuf T)) : Prop :=
  ∃ s' a, res = some (s', a) ∧ (a.request = msgSucc ↔ Designates q query) ∧
    (a.request = msgSucc → ∃ c, Entry s q query c ∧ Carries s' a c) ∧
    (a.request ≠ msgSucc → a.mtext = q.mtext ∧ a.info = q.info ∧ s'.shm = s.shm)

def Query.ask (query : Query) (q : MyMsgBuf T) : MyMsgBuf T :=
  { q with cmd := query.command.cmd }

/-- The server gives a good answer to the query with the arguments of the message. -/
def Answered (s : Configd T) (q : MyMsgBuf T) (query : Query) : Prop :=
  Good s q query (msgProcess s (query.ask q))

/-- The string that is read is terminated; an index is neither negative nor that of the
entry that ends the table; an id of a chain is not that of this entry; and there is a
default, which can be converted. -/
def Handled (s : Configd T) (q : MyMsgBuf T) : Query → Prop
  | .mibGet => ∀ e ∈ T.mibTable, (e.id : Int) = q.arg1 → e.type.isString = true →
      ∀ m, valueTbl e.mibType = some m → Terminated (s.ram.tbl m) e
  | .mibInfoId => True
  | .mibInfoIndex => 0 ≤ q.arg1 ∧ q.arg1 ≠ T.mibTable.length
  | .mibGetDefault => ∃ e ∈ T.mibTable, (e.id : Int) = q.arg1 ∧ ∃ v, e.defaultValue = some v ∧
      (stringToMib T v e.type e.size).isSome
  | .chainInfoId | .chainGetDefault => q.arg1 ≠ 0
  | .chainInfoIndex => 0 ≤ q.arg1 ∧ q.arg1 ≠ T.chainTable.length

theorem msgProcess_ask (s : Configd T) (q : MyMsgBuf T) (query : Query) :
    msgProcess s (query.ask q) = query.command.func s (query.ask q).toClient := by
  simp only [msgProcess, Query.ask, lookup_cmd]

/-- Only the arguments and the text of a message count. -/
theorem good_ask {s : Configd T} {q : MyMsgBuf T} {query : Query}
    {res : Option (Configd T × MyMsgBuf T)} :
    Good s (query.ask q).toClient query res ↔ Good s q query res := by
  cases query <;> exact Iff.rfl

/-- A refusal is good if nothing is designated. -/
theorem good_fail {s : Configd T} {q : MyMsgBuf T} {query : Query}
    (h : ¬ Designates q query) : Good s q query (some (s, q.reply msgFail)) := by
  refine ⟨s, q.reply msgFail, rfl, ?_, ?_, fun _ => ⟨rfl, rfl, rfl⟩⟩
  · constructor
    · rintro ⟨⟩
    · exact fun hd => absurd hd h
  · rintro ⟨⟩

theorem good_success {s s' : Configd T} {q a : MyMsgBuf T} {query : Query} {c : Content}
    (ha : a.request = msgSucc) (hd : Designates q query) (hc : Entry s q query c)
    (hcarries : Carries s' a c) : Good s q query (some (s', a)) :=
  ⟨s', a, rfl, iff_of_true ha hd, fun _ => ⟨c, hc, hcarries⟩, fun hne => absurd ha hne⟩

theorem not_good_none {s : Configd T} {q : MyMsgBuf T} {query : Query} :
    ¬ Good s q query none := by
  rintro ⟨s', a, ⟨⟩, -⟩

theorem Good.designates {s s' : Configd T} {q a : MyMsgBuf T} {query : Query}
    (h : Good s q query (some (s', a))) (ha : a.request = msgSucc) : Designates q query := by
  obtain ⟨_, _, ⟨⟩, hd, -⟩ := h
  exact hd.mp ha

/-- An id is looked up with the entry it designates, or with the end of the table. -/
theorem mibInfo_cases (T : Tables) (id : Int) :
    (∃ e ∈ T.mibTable, (e.id : Int) = id ∧ mibInfo T id = e) ∨
      ((∀ e ∈ T.mibTable, (e.id : Int) ≠ id) ∧ mibInfo T id = .terminator) := by
  rcases mibInfo_mem_or T id with ⟨hmem, hid⟩ | hterm
  · exact Or.inl ⟨_, hmem, hid, rfl⟩
  · refine Or.inr ⟨fun e he hid => ?_, hterm⟩
    have hpos := T.mibTable_id e he
    rw [← mibInfo_eq he hid, hterm] at hpos
    exact absurd hpos (by decide)

theorem valueTbl_mem {e : MibTableEntry} (he : e ∈ T.mibTable) :
    ∃ m, valueTbl e.mibType = some m := by
  rcases T.mibTable_type e he with h | h | h
  · exact ⟨.cs, by rw [h]; rfl⟩
  · exact ⟨.hs, by rw [h]; rfl⟩
  · exact ⟨.rs, by rw [h]; rfl⟩

/-- An entry of the table lies in its structure. -/
theorem read_value (c : Config T) {e : MibTableEntry} (he : e ∈ T.mibTable) {m : MibTbl}
    (hm : valueTbl e.mibType = some m) :
    ∃ v, (c.tbl m).read e.offset e.size = some v := by
  have hfit := entry_fits he hm
  have hsize := size_le_footprint e
  cases hread : (c.tbl m).read e.offset e.size with
  | none =>
    have := Block.read_eq_none_iff.mp hread
    omega
  | some v => exact ⟨v, rfl⟩

theorem isCopied_mem {e : MibTableEntry} (he : e ∈ T.mibTable) (h : e.type.isString = false) :
    isCopied e.type = true := by
  obtain ⟨hword, hbyte, hobject⟩ := T.mibTable_value e he
  cases ht : e.type with
  | string | encryptString => rw [ht] at h; cases h
  | wordArray => exact absurd ht hword
  | byte64 => exact absurd ht hbyte
  | object => exact absurd ht hobject
  | byte | word | dword | integer | byte5 | byte6 | byte13 | ia | ia6 | byteArray
  | intArray => rfl

theorem withText_success (s : Configd T) (q : MyMsgBuf T) {data : Bytes}
    (h : data.length ≤ T.maxSendSize) :
    ∃ a, withText s q data = some (s, a) ∧ a.request = msgSucc ∧ data <+: a.mtext.1 := by
  obtain ⟨text, hwrite, hpre⟩ := Block.write_head q.mtext h
  refine ⟨{ q with mtext := text }.reply msgSucc, ?_, rfl, hpre⟩
  rw [withText, hwrite]
  rfl

/-- Only a terminated string has a value. -/
theorem terminated_of_entry {s : Configd T} {q : MyMsgBuf T} {e : MibTableEntry}
    (he : e ∈ T.mibTable) (hid : (e.id : Int) = q.arg1) (hstring : e.type.isString = true)
    {m : MibTbl} (hm : valueTbl e.mibType = some m) {c : Content} (h : Entry s q .mibGet c) :
    Terminated (s.ram.tbl m) e := by
  cases c with
  | text data =>
    obtain ⟨f, hf, hfid, n, v, hn, hread, hv⟩ := h
    obtain rfl : f = e := T.mibTable_unique e he f hf (by omega)
    cases hn.symm.trans hm
    rw [if_pos hstring] at hv
    exact ⟨v, hread, hv.1⟩
  | info i => cases h
  | record data => cases h

theorem mibGet_good_iff {s : Configd T} {q : MyMsgBuf T} :
    Good s q .mibGet (cfgMibGet s q) ↔ Handled s q .mibGet := by
  rcases mibInfo_cases T q.arg1 with ⟨e, he, hid, hinfo⟩ | ⟨hnone, hinfo⟩
  · obtain ⟨m, hm⟩ := valueTbl_mem he
    obtain ⟨v, hread⟩ := read_value s.ram.toConfig he hm
    have hsend : e.size ≤ T.maxSendSize :=
      (size_le_footprint e).trans (T.mibTable_send e he)
    have hget : cfgMibGet s q = withValue s q (getValue (s.ram.tbl m) e) := by
      simp only [cfgMibGet, mibGet, hinfo, hm]
    rw [hget]
    by_cases hstring : e.type.isString = true
    · constructor
      · rintro ⟨s', a, -, hd, hdata, -⟩ f hf hfid - n hn
        obtain rfl : f = e := T.mibTable_unique e he f hf (by omega)
        obtain ⟨c, hc, -⟩ := hdata (hd.mpr ⟨f, hf, hfid⟩)
        exact terminated_of_entry hf hfid hstring hn hc
      · intro h
        obtain ⟨w, hw, hnul⟩ := h e he hid hstring m hm
        cases hread.symm.trans hw
        have htext := strcpyFrom_value hread hnul
        have hlen : (cstr v.1 ++ [0]).length ≤ T.maxSendSize := by
          have hlt : strlen v.1 < v.1.length := strlen_lt_of_nul hnul
          rw [v.2] at hlt
          rw [List.length_append]
          exact le_trans hlt hsend
        obtain ⟨a, ha, hsucc, hpre⟩ := withText_success s q hlen
        rw [getValue, if_pos hstring, htext]
        change Good s q .mibGet (withText s q (cstr v.1 ++ [0]))
        rw [ha]
        exact good_success (c := .text _) hsucc ⟨e, he, hid⟩
          ⟨e, he, hid, m, v, hm, hread, by rw [if_pos hstring]; exact ⟨hnul, rfl⟩⟩ hpre
    · refine iff_of_true ?_ ?_
      · have hlen : v.1.length ≤ T.maxSendSize := by rw [v.2]; exact hsend
        obtain ⟨a, ha, hsucc, hpre⟩ := withText_success s q hlen
        rw [getValue, if_neg hstring, if_pos (isCopied_mem he (by simpa using hstring)), hread]
        change Good s q .mibGet (withText s q v.1)
        rw [ha]
        exact good_success (c := .text _) hsucc ⟨e, he, hid⟩
          ⟨e, he, hid, m, v, hm, hread, by rw [if_neg hstring]⟩ hpre
      · intro f hf hfid hfs
        obtain rfl : f = e := T.mibTable_unique e he f hf (by omega)
        exact absurd hfs hstring
  · refine iff_of_true ?_ fun e he hid => absurd hid (hnone e he)
    have hget : cfgMibGet s q = some (s, q.reply msgFail) := by
      simp only [cfgMibGet, mibGet, hinfo]
      rfl
    rw [hget]
    exact good_fail fun ⟨e, he, hid⟩ => hnone e he hid

theorem mibInfoId_good {s : Configd T} {q : MyMsgBuf T} :
    Good s q .mibInfoId (cfgMibInfoId s q) := by
  unfold cfgMibInfoId
  rcases mibInfo_cases T q.arg1 with ⟨e, he, hid, hinfo⟩ | ⟨hnone, hinfo⟩
  · have hpos := T.mibTable_id e he
    rw [hinfo, if_neg (by omega)]
    exact good_success (c := .info (.mib e)) rfl ⟨e, he, hid⟩ ⟨he, hid⟩ rfl
  · rw [hinfo, if_pos (show MibTableEntry.terminator.id = 0 from rfl)]
    exact good_fail fun ⟨e, he, hid⟩ => hnone e he hid

theorem mibEntry_of_lt {i : Nat} (hi : i < T.mibTable.length) :
    T.mibTable[i]? = some (T.mibEntry i) := by
  simp [Tables.mibEntry, List.getD_eq_getElem?_getD, hi]

theorem mibInfoIndex_good_iff {s : Configd T} {q : MyMsgBuf T} :
    Good s q .mibInfoIndex (cfgMibInfoIndex s q) ↔ Handled s q .mibInfoIndex := by
  unfold cfgMibInfoIndex
  split
  · rename_i hge
    refine iff_of_true (good_fail ?_) ⟨by omega, by omega⟩
    rintro ⟨-, hlt⟩
    omega
  split
  · rename_i hneg
    refine iff_of_false not_good_none ?_
    rintro ⟨hpos, -⟩
    omega
  · rename_i hle hpos
    constructor
    · intro h
      obtain ⟨-, hlt⟩ := h.designates rfl
      exact ⟨by omega, by omega⟩
    · rintro ⟨-, hne⟩
      exact good_success (c := .info (.mib (T.mibEntry q.arg1.toNat))) rfl
        ⟨by omega, by omega⟩ ⟨by omega, mibEntry_of_lt (by omega)⟩ rfl

/-- The loop writes the default of the one entry that has the id, perhaps several times. -/
theorem getDefLoop_write {n : Nat} {e : MibTableEntry} {v data : Bytes}
    (hv : e.defaultValue = some v) (hdata : stringToMib T v e.type e.size = some data)
    (hfit : data.length ≤ n) {es : List MibTableEntry} (hes : ∀ f ∈ es, f.id = e.id → f = e)
    (buffer : Block n) (h : e ∈ es ∨ data <+: buffer.1) :
    ∃ buffer', getDefLoop T e.id es buffer = some buffer' ∧ data <+: buffer'.1 := by
  induction es generalizing buffer with
  | nil =>
    rcases h with hmem | hpre
    · cases hmem
    · exact ⟨buffer, rfl, hpre⟩
  | cons f es ih =>
    have htail : ∀ g ∈ es, g.id = e.id → g = e :=
      fun g hg => hes g (List.mem_cons_of_mem f hg)
    by_cases hid : f.id = e.id
    · obtain rfl := hes f List.mem_cons_self hid
      obtain ⟨buffer', hwrite, hpre⟩ := Block.write_head buffer hfit
      have hstep : getDefLoop T f.id (f :: es) buffer = getDefLoop T f.id es buffer' := by
        simp [getDefLoop, hv, hdata, hwrite]
      rw [hstep]
      exact ih htail buffer' (Or.inr hpre)
    · have hstep : getDefLoop T e.id (f :: es) buffer = getDefLoop T e.id es buffer := by
        simp [getDefLoop, hid]
      rw [hstep]
      refine ih htail buffer (h.imp_left fun hmem => ?_)
      refine (List.mem_cons.mp hmem).resolve_left ?_
      rintro rfl
      exact hid rfl

/-- A default that cannot be converted leaves a buffer on the way. -/
theorem getDefLoop_none {n : Nat} {e : MibTableEntry} {v : Bytes}
    (hv : e.defaultValue = some v) (hdata : stringToMib T v e.type e.size = none)
    {es : List MibTableEntry} (hes : ∀ f ∈ es, f.id = e.id → f = e) (buffer : Block n)
    (h : e ∈ es) : getDefLoop T e.id es buffer = none := by
  induction es with
  | nil => cases h
  | cons f es ih =>
    by_cases hid : f.id = e.id
    · obtain rfl := hes f List.mem_cons_self hid
      simp [getDefLoop, hv, hdata]
    · have hstep : getDefLoop T e.id (f :: es) buffer = getDefLoop T e.id es buffer := by
        simp [getDefLoop, hid]
      rw [hstep]
      refine ih (fun g hg => hes g (List.mem_cons_of_mem f hg)) ?_
      refine (List.mem_cons.mp h).resolve_left ?_
      rintro rfl
      exact hid rfl

/-- The answer is a success for every id. -/
theorem mibGetDefault_success {s s' : Configd T} {q a : MyMsgBuf T}
    (h : cfgMibGetDefault s q = some (s', a)) : s' = s ∧ a.request = msgSucc := by
  obtain ⟨res, hdef, he⟩ := Option.map_eq_some_iff.mp h
  obtain ⟨buffer', -, rfl⟩ := Option.map_eq_some_iff.mp hdef
  cases he
  exact ⟨rfl, rfl⟩

theorem mibGetDefault_good_iff {s : Configd T} {q : MyMsgBuf T} :
    Good s q .mibGetDefault (cfgMibGetDefault s q) ↔ Handled s q .mibGetDefault := by
  constructor
  · rintro ⟨s', a, hres, hd, -, -⟩
    obtain ⟨e, he, hid, hdefault⟩ := hd.mp (mibGetDefault_success hres).2
    obtain ⟨v, hv⟩ := Option.ne_none_iff_exists'.mp hdefault
    refine ⟨e, he, hid, v, hv, ?_⟩
    rw [Option.isSome_iff_ne_none]
    intro hdata
    have hloop := getDefLoop_none hv hdata (T.mibTable_unique e he) q.mtext he
    simp only [cfgMibGetDefault, mibGetDef, ← hid, hloop] at hres
    cases hres
  · rintro ⟨e, he, hid, v, hv, hsome⟩
    obtain ⟨data, hdata⟩ := Option.isSome_iff_exists.mp hsome
    have hfit : data.length ≤ T.maxSendSize :=
      ((stringToMib_length_le hdata).trans (le_max_right _ _)).trans (T.mibTable_send e he)
    obtain ⟨buffer', hloop, hpre⟩ :=
      getDefLoop_write hv hdata hfit (T.mibTable_unique e he) q.mtext (Or.inl he)
    have hget : cfgMibGetDefault s q =
        some (s, { q with mtext := buffer' }.reply msgSucc) := by
      simp only [cfgMibGetDefault, mibGetDef, ← hid, hloop]
      rfl
    rw [hget]
    exact good_success (c := .text data) rfl ⟨e, he, hid, by rw [hv]; exact Option.some_ne_none v⟩
      ⟨e, he, hid, v, hv, hdata⟩ hpre

theorem chainEntry_get {i : Nat} (hi : i < T.chainTable.length) :
    T.chainTable[i]? = some (T.chainEntry i) := by
  simp [Tables.chainEntry, List.getD_eq_getElem?_getD, hi]

/-- An entry of the chain table has one place. -/
theorem mib2tblId_of_mem {e : ChainRecordTableEntry} {id : Int} (he : e ∈ T.chainTable)
    (hid : (e.id : Int) = id) :
    ∃ i, i < T.chainTable.length ∧ T.chainEntry i = e ∧ mibChainMib2tblId T id = some i := by
  obtain ⟨i, hi, rfl⟩ := List.mem_iff_getElem.mp he
  rw [← chainEntry_of_lt hi] at hid ⊢
  exact ⟨i, hi, rfl, mib2tblId_eq_some_iff.mpr (Or.inl ⟨hi, hid⟩)⟩

/-- A chain id is looked up with its entry, not at all, or with the end of the table. -/
theorem mib2tblId_cases (T : Tables) (id : Int) :
    (∃ e ∈ T.chainTable, (e.id : Int) = id ∧
      ∃ i, T.chainEntry i = e ∧ mibChainMib2tblId T id = some i) ∨
    ((∀ e ∈ T.chainTable, (e.id : Int) ≠ id) ∧ id ≠ 0 ∧ mibChainMib2tblId T id = none) ∨
    ((∀ e ∈ T.chainTable, (e.id : Int) ≠ id) ∧ id = 0 ∧
      mibChainMib2tblId T id = some T.chainTable.length) := by
  by_cases hex : ∃ e ∈ T.chainTable, (e.id : Int) = id
  · obtain ⟨e, he, hid⟩ := hex
    obtain ⟨i, -, hentry, hindex⟩ := mib2tblId_of_mem he hid
    exact Or.inl ⟨e, he, hid, i, hentry, hindex⟩
  have hno : ∀ e ∈ T.chainTable, (e.id : Int) ≠ id := fun e he hid => hex ⟨e, he, hid⟩
  by_cases h0 : id = 0
  · exact Or.inr (Or.inr ⟨hno, h0, mib2tblId_eq_some_iff.mpr (Or.inr ⟨rfl, h0⟩)⟩)
  · refine Or.inr (Or.inl ⟨hno, h0, ?_⟩)
    cases hindex : mibChainMib2tblId T id with
    | none => rfl
    | some i =>
      rcases mib2tblId_eq_some_iff.mp hindex with ⟨hi, hid⟩ | ⟨-, hid⟩
      · exact absurd hid (hno _ (chainEntry_mem hi))
      · exact absurd hid h0

theorem chainInfoId_good_iff {s : Configd T} {q : MyMsgBuf T} :
    Good s q .chainInfoId (cfgChainInfoId s q) ↔ Handled s q .chainInfoId := by
  unfold cfgChainInfoId
  rcases mib2tblId_cases T q.arg1 with ⟨e, he, hid, i, hentry, hindex⟩ | ⟨hno, h0, hindex⟩ |
    ⟨hno, h0, hindex⟩
  · have hpos := (T.chainTable_id e he).1
    rw [hindex]
    refine iff_of_true ?_ (show q.arg1 ≠ 0 by omega)
    exact good_success (c := .info (.chain e)) rfl ⟨e, he, hid⟩ ⟨he, hid⟩
      (congrArg (fun e => some (EntryImage.chain e)) hentry)
  · rw [hindex]
    exact iff_of_true (good_fail fun ⟨e, he, hid⟩ => hno e he hid) h0
  · rw [hindex]
    refine iff_of_false (fun h => ?_) (fun hne => hne h0)
    obtain ⟨e, he, hid⟩ := h.designates rfl
    exact hno e he hid

theorem chainInfoIndex_good_iff {s : Configd T} {q : MyMsgBuf T} :
    Good s q .chainInfoIndex (cfgChainInfoIndex s q) ↔ Handled s q .chainInfoIndex := by
  unfold cfgChainInfoIndex
  split
  · rename_i hge
    refine iff_of_true (good_fail ?_) ⟨by omega, by omega⟩
    rintro ⟨-, hlt⟩
    omega
  split
  · rename_i hneg
    refine iff_of_false not_good_none ?_
    rintro ⟨hpos, -⟩
    omega
  · rename_i hle hpos
    constructor
    · intro h
      obtain ⟨-, hlt⟩ := h.designates rfl
      exact ⟨by omega, by omega⟩
    · rintro ⟨-, hne⟩
      exact good_success (c := .info (.chain (T.chainEntry q.arg1.toNat))) rfl
        ⟨by omega, by omega⟩ ⟨by omega, chainEntry_get (by omega)⟩ rfl

theorem strtol_bounds (base : Nat) (s : Bytes) :
    -(2 ^ 31) ≤ strtol base s ∧ strtol base s < 2 ^ 31 := by
  unfold strtol
  dsimp only
  split <;> omega

/-- A negative record number is a very large one. -/
theorem entryNo_cases (q : MyMsgBuf T) :
    (0 ≤ atoi q.mtext.1 ∧ entryNo q = (atoi q.mtext.1).toNat) ∨
      (atoi q.mtext.1 < 0 ∧ 2 ^ 31 ≤ entryNo q) := by
  have := strtol_bounds 10 q.mtext.1
  unfold entryNo u32OfInt atoi
  omega

theorem withShm_success (s : Configd T) (q : MyMsgBuf T) {data : Bytes}
    (h : data.length ≤ T.shmSize) :
    ∃ s' a, withShm s q data = some (s', a) ∧ a.request = msgSucc ∧ data <+: s'.shm.1 := by
  obtain ⟨shm, hwrite, hpre⟩ := Block.write_head s.shm h
  refine ⟨{ s with shm := shm }, q.reply msgSucc, ?_, rfl, hpre⟩
  rw [withShm, hwrite]
  rfl

/-- A record below the number of defaults lies within the defaults. -/
theorem read_default {e : ChainRecordTableEntry} (he : e ∈ T.chainTable) {v : Bytes}
    (hv : e.defaultValue = some v) {k : Nat} (hk : k < e.defaultSize / e.perRecordSize) :
    ∃ data, (Block.ofBytes v).read (k * e.perRecordSize) e.perRecordSize = some data ∧
      data.1 <+: v.drop (k * e.perRecordSize) := by
  have hlen := T.chainTable_default e he v hv
  have hin : (k + 1) * e.perRecordSize ≤ e.defaultSize :=
    (Nat.mul_le_mul_right _ hk).trans (Nat.div_mul_le_self _ _)
  rw [Nat.succ_mul] at hin
  cases hread : (Block.ofBytes v).read (k * e.perRecordSize) e.perRecordSize with
  | none =>
    have := Block.read_eq_none_iff.mp hread
    omega
  | some data =>
    obtain ⟨-, hdata⟩ := Block.read_eq_some_iff.mp hread
    refine ⟨data, rfl, ?_⟩
    rw [hdata]
    exact List.take_prefix _ _

/-- What `_mib_chain_getDef` returns for an entry of the table. -/
theorem mibChainGetDef_eq {id : Int} {e : ChainRecordTableEntry} {i : Nat}
    (hper : 0 < e.perRecordSize) (hentry : T.chainEntry i = e)
    (hindex : mibChainMib2tblId T id = some i) (k : Nat) :
    mibChainGetDef T id k =
      if e.defaultSize / e.perRecordSize ≤ k then some none
      else
        match e.defaultValue with
        | none => some none
        | some v =>
          ((Block.ofBytes v).read (k * e.perRecordSize) e.perRecordSize).map
            fun data => some data.1 := by
  subst hentry
  rw [mibChainGetDef, hindex]
  exact if_neg hper.ne'

theorem chainGetDef_good {s : Configd T} {q : MyMsgBuf T} {e : ChainRecordTableEntry} {i : Nat}
    (he : e ∈ T.chainTable) (hid : (e.id : Int) = q.arg1) (hentry : T.chainEntry i = e)
    (hindex : mibChainMib2tblId T q.arg1 = some i) :
    Good s q .chainGetDefault (cfgChainGetDef s q) := by
  obtain ⟨hper, -, hshm⟩ := T.chainTable_size e he
  have hsize := T.chainTable_defaultSize e he
  have hcount := Nat.div_le_self e.defaultSize e.perRecordSize
  have hone : ∀ f ∈ T.chainTable, (f.id : Int) = q.arg1 → f = e := by
    intro f hf hfid
    obtain ⟨j, -, rfl, hj⟩ := mib2tblId_of_mem hf hfid
    cases hindex.symm.trans hj
    exact hentry
  have hno := entryNo_cases q
  rw [cfgChainGetDef, mibChainGetDef_eq hper hentry hindex]
  by_cases hk : e.defaultSize / e.perRecordSize ≤ entryNo q
  · rw [if_pos hk]
    refine good_fail ?_
    rintro ⟨f, hf, hfid, -, hatoi, hlt⟩
    obtain rfl := hone f hf hfid
    omega
  rw [if_neg hk]
  cases hv : e.defaultValue with
  | none =>
    refine good_fail ?_
    rintro ⟨f, hf, hfid, hdefault, -⟩
    obtain rfl := hone f hf hfid
    exact hdefault hv
  | some v =>
    obtain ⟨data, hread, hpre⟩ := read_default he hv (not_le.mp hk)
    have hlen : data.1.length ≤ T.shmSize := by rw [data.2]; exact hshm
    obtain ⟨s', a, hres, hsucc, hcarries⟩ := withShm_success s q hlen
    dsimp only
    rw [hread]
    change Good s q .chainGetDefault (withShm s q data.1)
    have hnum : entryNo q = (atoi q.mtext.1).toNat := by omega
    rw [hres]
    rw [hnum] at hpre
    exact good_success (c := .record data.1) hsucc
      ⟨e, he, hid, by rw [hv]; exact Option.some_ne_none v, by omega, by omega⟩
      ⟨e, he, hid, v, hv, data.2, hpre⟩ hcarries

theorem chainGetDefault_good_iff {s : Configd T} {q : MyMsgBuf T} :
    Good s q .chainGetDefault (cfgChainGetDef s q) ↔ Handled s q .chainGetDefault := by
  rcases mib2tblId_cases T q.arg1 with ⟨e, he, hid, i, hentry, hindex⟩ | ⟨hno, h0, hindex⟩ |
    ⟨hno, h0, hindex⟩
  · have hpos := (T.chainTable_id e he).1
    exact iff_of_true (chainGetDef_good he hid hentry hindex) (show q.arg1 ≠ 0 by omega)
  · refine iff_of_true ?_ h0
    rw [cfgChainGetDef, mibChainGetDef, hindex]
    exact good_fail fun ⟨e, he, hid, _⟩ => hno e he hid
  · refine iff_of_false ?_ fun hne => hne h0
    rw [cfgChainGetDef, mibChainGetDef, hindex]
    dsimp only
    rw [chainEntry_of_ge le_rfl]
    exact not_good_none

theorem answered_iff_handled (s : Configd T) (q : MyMsgBuf T) (query : Query) :
    Answered s q query ↔ Handled s q query := by
  rw [Answered, msgProcess_ask, ← good_ask]
  cases query with
  | mibGet => exact mibGet_good_iff
  | mibInfoId => exact iff_of_true mibInfoId_good trivial
  | mibInfoIndex => exact mibInfoIndex_good_iff
  | mibGetDefault => exact mibGetDefault_good_iff
  | chainInfoId => exact chainInfoId_good_iff
  | chainInfoIndex => exact chainInfoIndex_good_iff
  | chainGetDefault => exact chainGetDefault_good_iff

/-- What a client gets that counts indices up to the first answer that is no success. -/
def visit (query : Query) (s : Configd T) (q : MyMsgBuf T) :
    Nat → Nat → Option (List EntryImage)
  | 0, _ => none
  | fuel + 1, i =>
    match msgProcess s (query.ask { q with arg1 := i }) with
    | none => none
    | some (s', a) =>
      if a.request = msgSucc then
        match a.info with
        | none => none
        | some e => (visit query s' q fuel (i + 1)).map (e :: ·)
      else some []

/-- Indices that are answered from a list up to its end visit the rest of the list. -/
theorem visit_eq {query : Query} {s : Configd T} {q : MyMsgBuf T} {l : List EntryImage}
    (hin : ∀ (i : Nat) e, l[i]? = some e → ∃ a,
      msgProcess s (query.ask { q with arg1 := i }) = some (s, a) ∧ a.request = msgSucc ∧
        a.info = some e)
    (hend : ∃ a, msgProcess s (query.ask { q with arg1 := l.length }) = some (s, a) ∧
      a.request ≠ msgSucc) (fuel : Nat) {i : Nat} (hi : i ≤ l.length)
    (hfuel : l.length - i < fuel) : visit query s q fuel i = some (l.drop i) := by
  induction fuel generalizing i with
  | zero => omega
  | succ fuel ih =>
    rcases Nat.lt_or_eq_of_le hi with hlt | rfl
    · obtain ⟨a, hmsg, hsucc, hinfo⟩ := hin i _ (List.getElem?_eq_getElem hlt)
      rw [visit, hmsg]
      dsimp only
      rw [if_pos hsucc, hinfo, List.drop_eq_getElem_cons hlt]
      dsimp only
      rw [ih hlt (by omega)]
      rfl
    · obtain ⟨a, hmsg, hfail⟩ := hend
      rw [visit, hmsg]
      dsimp only
      rw [if_neg hfail, List.drop_length]

/-- A table with the entry that ends it. -/
theorem ended_eq {α β : Type} (f : α → β) {l : List α} {t : α} {i : Nat} {b : β}
    (h : ((l ++ [t]).map f)[i]? = some b) : i ≤ l.length ∧ b = f (l.getD i t) := by
  rw [List.getElem?_map] at h
  obtain ⟨a, ha, rfl⟩ := Option.map_eq_some_iff.mp h
  rw [List.getD_eq_getElem?_getD]
  rcases Nat.lt_trichotomy i l.length with hlt | rfl | hgt
  · rw [List.getElem?_append_left hlt] at ha
    exact ⟨hlt.le, by rw [ha]; rfl⟩
  · rw [List.getElem?_concat_length] at ha
    cases ha
    exact ⟨le_rfl, by rw [List.getElem?_eq_none le_rfl]; rfl⟩
  · rw [List.getElem?_eq_none (by simp; omega)] at ha
    cases ha

/-- The table of an index query, with the entry that ends it. -/
def Query.table (T : Tables) : Query → List EntryImage
  | .mibInfoIndex => (T.mibTable ++ [MibTableEntry.terminator]).map .mib
  | .chainInfoIndex => (T.chainTable ++ [ChainRecordTableEntry.terminator]).map .chain
  | _ => []

theorem visit_mibInfoIndex (s : Configd T) (q : MyMsgBuf T) :
    visit .mibInfoIndex s q (T.mibTable.length + 2) 0 = some (Query.mibInfoIndex.table T) := by
  have hlen : (Query.mibInfoIndex.table T).length = T.mibTable.length + 1 := by
    simp [Query.table]
  refine visit_eq (l := Query.mibInfoIndex.table T) (fun i e he => ?_) ?_ _ (Nat.zero_le _)
    (by omega)
  · obtain ⟨hi, rfl⟩ := ended_eq _ he
    have hin : ¬ (T.mibTable.length + 1 : Int) ≤ i := by omega
    have hpos : ¬ (i : Int) < 0 := by omega
    have hmsg : msgProcess s (Query.mibInfoIndex.ask { q with arg1 := i }) =
        some (s, { (Query.mibInfoIndex.ask { q with arg1 := i }).toClient with
          info := some (.mib (T.mibEntry i)) }.reply msgSucc) :=
      (msgProcess_ask _ _ _).trans ((if_neg hin).trans (if_neg hpos))
    exact ⟨_, hmsg, rfl, rfl⟩
  · rw [hlen, msgProcess_ask]
    have hout : (T.mibTable.length + 1 : Int) ≤ (T.mibTable.length + 1 : Nat) := by omega
    exact ⟨_, if_pos hout, by rintro ⟨⟩⟩

theorem visit_chainInfoIndex (s : Configd T) (q : MyMsgBuf T) :
    visit .chainInfoIndex s q (T.chainTable.length + 2) 0 =
      some (Query.chainInfoIndex.table T) := by
  have hlen : (Query.chainInfoIndex.table T).length = T.chainTable.length + 1 := by
    simp [Query.table]
  refine visit_eq (l := Query.chainInfoIndex.table T) (fun i e he => ?_) ?_ _ (Nat.zero_le _)
    (by omega)
  · obtain ⟨hi, rfl⟩ := ended_eq _ he
    have hin : ¬ (T.chainTable.length + 1 : Int) ≤ i := by omega
    have hpos : ¬ (i : Int) < 0 := by omega
    have hmsg : msgProcess s (Query.chainInfoIndex.ask { q with arg1 := i }) =
        some (s, { (Query.chainInfoIndex.ask { q with arg1 := i }).toClient with
          info := some (.chain (T.chainEntry i)) }.reply msgSucc) :=
      (msgProcess_ask _ _ _).trans ((if_neg hin).trans (if_neg hpos))
    exact ⟨_, hmsg, rfl, rfl⟩
  · rw [hlen, msgProcess_ask]
    have hout : (T.chainTable.length + 1 : Int) ≤ (T.chainTable.length + 1 : Nat) := by omega
    exact ⟨_, if_pos hout, by rintro ⟨⟩⟩

/-- A query gets a good answer exactly when it is handled, and counting indices visits each
entry once and then the one that ends the table. -/
theorem queries_answered_iff :
    (∀ (s : Configd T) (q : MyMsgBuf T) (query : Query),
      Answered s q query ↔ Handled s q query) ∧
    ∀ (s : Configd T) (q : MyMsgBuf T),
      visit .mibInfoIndex s q (T.mibTable.length + 2) 0 = some (Query.mibInfoIndex.table T) ∧
      visit .chainInfoIndex s q (T.chainTable.length + 2) 0 =
        some (Query.chainInfoIndex.table T) :=
  ⟨answered_iff_handled, fun s q => ⟨visit_mibInfoIndex s q, visit_chainInfoIndex s q⟩⟩

/-- The default of an id that no entry has is a success. -/
theorem unknown_default_answered :
    ¬ ∀ (s : Configd sampleTables) (q : MyMsgBuf sampleTables) (query : Query),
      Answered s q query := by
  intro h
  obtain ⟨e, he, hid, -⟩ := (answered_iff_handled _ _ _).mp
    (h (boot sampleRam sampleFlash) { emptyMsg _ with arg1 := 7 } .mibGetDefault)
  change e ∈ sampleMibTable at he
  simp [sampleMibTable] at he
  rcases he with rfl | rfl <;> cases hid

end QueryReplies
