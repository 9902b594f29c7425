import BoaGateway.MibToolItems

/-!
# Settings of the mib tool

How names are found, and when an item of `set` does what it is to do.
-/

namespace MibTool

open ByteBlocks Texts TextFiles MibTypes MibValue MibText XmlLoad FieldTexts Tokens ArgumentLoops

variable {X : ToolTables} {A : Answers} {s : Store X} {arg value : Bytes} {rest : List Bytes}
  {i : Nat} {e : MibTableEntry}

theorem tableEntry_spec {name : Bytes} (h : tableEntry X name = some e) :
    e ∈ X.mibTable ∧ X.mibName e = name := by
  have hname := List.find?_some h
  exact ⟨List.mem_of_find?_eq_some h, eq_of_beq hname⟩

theorem chainIndex_spec {name : Bytes} (h : chainIndex X name = some i) :
    X.chainEntry i ∈ X.chainTable ∧ (X.chainEntry i).name = name := by
  obtain ⟨hi, hname, -⟩ := List.findIdx?_eq_some_iff_getElem.mp h
  have hentry : X.chainEntry i = X.chainTable[i] := by
    rw [Tables.chainEntry, List.getD_eq_getElem?_getD, List.getElem?_eq_getElem hi,
      Option.getD_some]
  rw [hentry]
  exact ⟨List.getElem_mem hi, eq_of_beq hname⟩

theorem takeWhile_dots {w : Bytes} (h : (46 : UInt8) ∉ w) : w.takeWhile (· ≠ 46) = w := by
  rw [List.takeWhile_eq_self_iff]
  intro c hc
  exact decide_eq_true fun heq => h (heq ▸ hc)

/-- The name of a table entry is a whole item. -/
theorem nameOf_entry (h : tableEntry X (mapped arg) = some e) : nameOf arg = mapped arg := by
  obtain ⟨he, hname⟩ := tableEntry_spec h
  apply takeWhile_dots
  rw [← hname]
  exact X.mibName_plain e he

theorem entry_no_chain {name : Bytes} (h : tableEntry X name = some e) :
    chainIndex X name = none := by
  cases hi : chainIndex X name with
  | none => rfl
  | some i =>
    obtain ⟨he, hname⟩ := tableEntry_spec h
    obtain ⟨hc, hchain⟩ := chainIndex_spec hi
    exact absurd (hname.trans hchain.symm) (X.names_apart e he _ hc)

theorem chain_no_entry {name : Bytes} (h : chainIndex X name = some i) :
    tableEntry X name = none := by
  cases he : tableEntry X name with
  | none => rfl
  | some e =>
    rw [entry_no_chain he] at h
    cases h

theorem resolve_chain (hlength : (mapped arg).length < 100)
    (h : chainIndex X (nameOf arg) = some i) :
    mibNameResolve X arg = some (.chain, mapped arg) := by
  have hentry := chain_no_entry h
  rw [nameOf] at h hentry
  simp only [mibNameResolve, if_neg (Nat.not_le.mpr hlength), hentry, h, Option.isSome_none,
    Option.isSome_some, Bool.false_eq_true, if_false, if_true]

theorem resolve_table (hlength : (mapped arg).length < 100)
    (h : tableEntry X (nameOf arg) = some e) :
    mibNameResolve X arg = some (.table, mapped arg) := by
  rw [nameOf] at h
  simp only [mibNameResolve, if_neg (Nat.not_le.mpr hlength), h, Option.isSome_some, if_true]

theorem resolve_unknown (hlength : (mapped arg).length < 100)
    (hentry : tableEntry X (nameOf arg) = none) (hchain : chainIndex X (nameOf arg) = none) :
    mibNameResolve X arg = some (.all, mapped arg) := by
  rw [nameOf] at hentry hchain
  simp only [mibNameResolve, if_neg (Nat.not_le.mpr hlength), hentry, hchain, Option.isSome_none,
    Bool.false_eq_true, if_false]

theorem resolve_long (hlength : ¬(mapped arg).length < 100) : mibNameResolve X arg = none :=
  if_pos (Nat.not_lt.mp hlength)

/-- The first token of a chain's item is the chain's name. -/
theorem tokens_mapped (h : chainIndex X (nameOf arg) = some i) :
    tokens [46] (mapped arg) = nameOf arg :: pathOf arg := by
  obtain ⟨hmem, hname⟩ := chainIndex_spec h
  obtain ⟨hne, hdots⟩ := X.chainName_plain _ hmem
  rw [hname] at hne hdots
  have hword : ∀ c ∈ nameOf arg, c ∉ ([46] : Bytes) := by
    intro c hc hdot
    exact hdots (List.mem_singleton.mp hdot ▸ hc)
  have hsplit := List.takeWhile_append_dropWhile (p := (· ≠ (46 : UInt8))) (l := mapped arg)
  obtain ⟨left, hleft⟩ : ∃ left, strtok [46] (mapped arg) = some (nameOf arg, left) := by
    cases hbehind : (mapped arg).dropWhile (· ≠ 46) with
    | nil =>
      rw [hbehind, List.append_nil] at hsplit
      refine ⟨[], ?_⟩
      have hlast : strtok [46] ([] ++ nameOf arg) = some (nameOf arg, []) :=
        strtok_last nofun hne hword
      have hwhole : nameOf arg = mapped arg := hsplit
      rw [List.nil_append, hwhole] at hlast
      rw [hwhole]
      exact hlast
    | cons c more =>
      have hdot := List.head_dropWhile_not (fun b : UInt8 => decide (b ≠ 46))
        (l := mapped arg) (by rw [hbehind]; exact List.cons_ne_nil _ _)
      simp only [hbehind, List.head_cons, decide_eq_false_iff_not, not_not] at hdot
      rw [hbehind, hdot] at hsplit
      refine ⟨more, ?_⟩
      rw [← hsplit]
      exact strtok_front hne hword List.mem_cons_self more
  rw [pathOf, tokens_cons hleft, List.tail_cons]

variable {demands : Store X → Prop} {st : Step Bytes (Store X)} {s' : Store X}

theorem right_done (h : demands s') (hone : ∀ s'', demands s'' → s'' = s') :
    Right demands s st ↔ st.state = s' := by
  constructor
  · intro hright
    exact hright.1 s' h
  · intro hstate
    exact ⟨fun s'' hs'' => hstate.trans (hone s'' hs'').symm, fun hnone => absurd h (hnone s')⟩

theorem right_nothing (h : ∀ s', ¬demands s') :
    Right demands s st ↔ st.state = s ∧ st.error = true := by
  constructor
  · intro hright
    exact hright.2 h
  · intro hst
    exact ⟨fun s' hs' => absurd hs' (h s'), fun _ => hst⟩

/-- The step of an item is right about nothing if the function behind it is. -/
theorem step_nothing {o : Option (ConfigData × Store X)} {behind : Option (List Bytes)} :
    (∃ st, o.map (fun r => Step.mk r.2 (decide (r.1 = .unknown)) behind) = some st ∧
      st.state = s ∧ st.error = true) ↔ ∃ r, o = some r ∧ r.2 = s ∧ r.1 = .unknown := by
  constructor
  · rintro ⟨st, hst, hstate, herror⟩
    obtain ⟨r, hr, rfl⟩ := Option.map_eq_some_iff.mp hst
    exact ⟨r, hr, hstate, of_decide_eq_true herror⟩
  · rintro ⟨r, rfl, hstate, hunknown⟩
    exact ⟨_, rfl, hstate, decide_eq_true hunknown⟩

variable {T : Tables} {string : Bytes} {type : TypeT} {size : Nat}

/-- A complete text is converted to all bytes of the value. -/
theorem complete_converts (h : Complete T none string size 0 type) :
    stringToMibFails T (cstr string) type = false ∧
      ∃ data, stringToMib T string type size = some data ∧ data.length = size := by
  refine ⟨complete_accepted h, ?_⟩
  have hroom : Roomy none string size 0 type := fun _ hdecrypt => by cases hdecrypt
  obtain ⟨data, hdata, hlen, -⟩ := complete_bytes h hroom
  refine ⟨data, ?_, hlen⟩
  have hfield := hdata fun _ => 0
  cases type <;> exact hfield

theorem stringToMibAt_fails {n : Nat} (mib : Block n) (off : Nat)
    (h : stringToMibFails T (cstr string) type = true) :
    stringToMibAt T mib off string type size = some mib :=
  if_pos h

theorem stringToMibAt_accepted {n : Nat} (mib : Block n) (off : Nat)
    (h : stringToMibFails T (cstr string) type = false) :
    stringToMibAt T mib off string type size =
      (stringToMib T string type size).bind (mib.write off) :=
  if_neg (by rw [h]; exact Bool.false_ne_true)

/-- A text goes into `mibvalue` whenever it is converted inside its arrays. -/
theorem mibvalue_isSome (he : e ∈ X.mibTable) (mib : Block 2048) :
    (stringToMibAt X.toTables mib 0 string e.type e.size).isSome = true ↔
      Converts X.toTables string e.type e.size := by
  cases hfails : stringToMibFails X.toTables (cstr string) e.type with
  | true =>
    rw [stringToMibAt_fails mib 0 hfails]
    exact iff_of_true rfl (Or.inl hfails)
  | false =>
    rw [stringToMibAt_accepted mib 0 hfails, Converts, hfails]
    cases hdata : stringToMib X.toTables string e.type e.size with
    | none => simp only [Option.bind_none, Option.isSome_none, Bool.false_eq_true, or_self]
    | some data =>
      have hlen := (stringToMib_length_le hdata).trans (le_max_right e.size _)
      obtain ⟨c, hc⟩ := Block.write_fits mib
        ((Nat.zero_add _).le.trans (hlen.trans (X.mibTable_mibvalue e he)))
      rw [Option.bind_some, hc]
      exact iff_of_true rfl (Or.inr rfl)

theorem valueResolve_text {av : List Bytes} {taken : Nat × Bytes}
    (h : mibTableValueResolve A type av = some taken) : taken.2 = entryText A type av := by
  rw [mibTableValueResolve] at h
  rw [entryText]
  split at h
  · rename_i htx
    rw [if_pos htx, ← Option.some.inj h]
  · rename_i htx
    dsimp only at h
    split at h
    · rw [if_neg htx, ← Option.some.inj h]
    · cases h

theorem valueResolve_isSome {av : List Bytes} :
    (mibTableValueResolve A type av).isSome = true ↔
      (txPower A type av = false → (av.tail.headD []).length < XmlLines.maxMibValStrLen) := by
  rw [mibTableValueResolve]
  cases htx : txPower A type av with
  | true =>
    rw [if_pos rfl]
    exact iff_of_true rfl nofun
  | false =>
    rw [if_neg Bool.false_ne_true]
    dsimp only
    by_cases hlen : (av.tail.headD []).length < XmlLines.maxMibValStrLen
    · rw [if_pos hlen]
      exact iff_of_true rfl fun _ => hlen
    · rw [if_neg hlen]
      exact iff_of_false Bool.false_ne_true fun h => hlen (h rfl)

/-- What an item with the name of a table entry can ask for. -/
theorem demands_entry (hentry : tableEntry X (mapped arg) = some e)
    (h : SetDemands A (arg :: value :: rest) s s') :
    ∃ data, SetsEntry X A (arg :: value :: rest) e data ∧ s' = s.setValue e.id data := by
  cases h with
  | @entry e' data _ sets =>
    have hsame : e' = e := Option.some.inj (sets.entry.symm.trans hentry)
    exact ⟨data, hsame ▸ sets, hsame ▸ rfl⟩
  | member _ sets =>
    have hnone : chainIndex X (nameOf arg) = none := by
      rw [nameOf_entry hentry]
      exact entry_no_chain hentry
    have hchain := sets.chain
    rw [List.headD_cons, hnone] at hchain
    cases hchain

theorem setsEntry_unique {av : List Bytes} {data data' : Bytes} (h : SetsEntry X A av e data)
    (h' : SetsEntry X A av e data') : data' = data :=
  Option.some.inj (h'.value.symm.trans h.value)

/-- The value of a table entry is stored as a whole. -/
theorem setByIndex_sets {av : List Bytes} {data : Bytes} (h : SetsEntry X A av e data) :
    mibTableSetByIndex A e (entryText A e.type av) s =
      some (e.mibType, s.setValue e.id data) := by
  obtain ⟨haccepted, data', hdata, hlen⟩ := complete_converts h.complete
  have hsame : data' = data := Option.some.inj (hdata.symm.trans h.value)
  subst hsame
  have hfit := X.mibTable_mibvalue e (tableEntry_spec h.entry).1
  have hsize : e.size ≤ e.footprint := le_max_left _ _
  obtain ⟨c, hwrite, hfront⟩ := Block.write_head (Block.ofFn 2048 A.memory)
    (hlen.le.trans (hsize.trans hfit))
  have htake : c.1.take e.size = data' := by
    rw [← hlen]
    exact (List.prefix_iff_eq_take.mp hfront).symm
  rw [mibTableSetByIndex, stringToMibAt_accepted _ _ haccepted, hdata, Option.bind_some, hwrite,
    Option.map_some, if_pos h.answered, htake]

theorem mibType_known (he : e ∈ X.mibTable) : e.mibType ≠ .unknown := by
  rcases X.mibTable_type e he with h | h | h <;> rw [h] <;> decide

theorem setItem_entry (hlength : (mapped arg).length < 100)
    (hentry : tableEntry X (mapped arg) = some e) :
    setItem A (arg :: value :: rest) s =
      (mibTableValueResolve A e.type (arg :: value :: rest)).bind fun taken =>
        (mibTableSetByIndex A e taken.2 s).map fun r =>
          ⟨r.2, r.1 = .unknown, some ((arg :: value :: rest).drop taken.1)⟩ := by
  have hname : tableEntry X (nameOf arg) = some e := by rwa [nameOf_entry hentry]
  rw [setItem, resolve_table hlength hname]
  simp only [hentry]

/-- An item for a table entry is right if it sets the entry, or if the text is converted and the
request fails. -/
theorem entry_right (hlength : (mapped arg).length < 100)
    (hentry : tableEntry X (mapped arg) = some e) :
    (∃ st, setItem A (arg :: value :: rest) s = some st ∧
      Right (SetDemands A (arg :: value :: rest) s) s st) ↔
        EntryFits X A (arg :: value :: rest) e := by
  obtain ⟨he, -⟩ := tableEntry_spec hentry
  rw [setItem_entry hlength hentry, EntryFits, ← valueResolve_isSome]
  cases htaken : mibTableValueResolve A e.type (arg :: value :: rest) with
  | none =>
    rw [Option.bind_none]
    exact iff_of_false (fun ⟨st, hst, _⟩ => by cases hst) fun ⟨hsome, _⟩ => by cases hsome
  | some taken =>
    rw [Option.bind_some, valueResolve_text htaken]
    by_cases hsets : ∃ data, SetsEntry X A (arg :: value :: rest) e data
    · obtain ⟨data, hdata⟩ := hsets
      refine iff_of_true ⟨_, congrArg (Option.map _) (setByIndex_sets hdata), ?_⟩
        ⟨rfl, Or.inl ⟨data, hdata⟩⟩
      rw [right_done (SetDemands.entry (Nat.le_add_left 2 _) hdata)]
      intro s'' hs''
      obtain ⟨data', hdata', rfl⟩ := demands_entry hentry hs''
      rw [setsEntry_unique hdata hdata']
    · have hnone : ∀ s', ¬SetDemands A (arg :: value :: rest) s s' := by
        intro s' hs'
        obtain ⟨data, hdata, -⟩ := demands_entry hentry hs'
        exact hsets ⟨data, hdata⟩
      simp only [right_nothing hnone, hsets, false_or, true_and, Option.isSome_some]
      rw [mibTableSetByIndex, ← mibvalue_isSome he (Block.ofFn 2048 A.memory)]
      cases hvalue : stringToMibAt X.toTables (Block.ofFn 2048 A.memory) 0
          (entryText A e.type (arg :: value :: rest)) e.type e.size with
      | none =>
        exact iff_of_false (fun ⟨st, hst, _⟩ => by cases hst) fun ⟨_, hsome⟩ => by cases hsome
      | some mibvalue =>
        cases hset : A.set with
        | true =>
          refine iff_of_false ?_ fun ⟨hfailed, _⟩ => by cases hfailed
          rintro ⟨st, hst, -, herror⟩
          cases hst
          exact mibType_known he (of_decide_eq_true herror)
        | false =>
          exact iff_of_true ⟨_, rfl, rfl, rfl⟩ ⟨rfl, rfl⟩

theorem chainType_known (h : chainIndex X (nameOf arg) = some i) :
    (X.chainEntry i).mibType ≠ .unknown :=
  X.chainTable_type _ (chainIndex_spec h).1

/-- A number of a record is read as such. -/
theorem recordNumber_read {text : Bytes} {n : Nat} (h : recordNumber text = some n) :
    s32 (strtoul 0 text) = n ∧ u32OfInt n = n := by
  rw [recordNumber] at h
  split at h
  · rename_i z hz
    split at h
    · rename_i hrange
      obtain ⟨hstored, -⟩ := number_stored hz
      have hread := hstored ⟨hrange.1, by omega⟩
      have hn := Option.some.inj h
      have hn : n = strtoul 0 text := by omega
      have hsmall : strtoul 0 text < 2 ^ 31 := by omega
      rw [hn, s32_eq hsmall, u32OfInt]
      exact ⟨rfl, by omega⟩
    · cases h
  · cases h

/-- What an item with the name of a chain can ask for. -/
theorem demands_member (hchain : chainIndex X (nameOf arg) = some i)
    (h : SetDemands A (arg :: value :: rest) s s') :
    ∃ n record, SetsMember X A (arg :: value :: rest) s i n record ∧
      s' = s.setChain i ((s.chains i).set n record) := by
  cases h with
  | @entry e data _ sets =>
    have hentry : tableEntry X (mapped arg) = some e := sets.entry
    have hname : chainIndex X (mapped arg) = none := entry_no_chain hentry
    rw [nameOf_entry hentry, hname] at hchain
    cases hchain
  | @member i' n record _ sets =>
    have hsame : i' = i := Option.some.inj (sets.chain.symm.trans hchain)
    subst hsame
    exact ⟨n, record, sets, rfl⟩

theorem setsMember_unique {av : List Bytes} {n n' : Nat} {record record' : Record X.toTables i}
    (h : SetsMember X A av s i n record) (h' : SetsMember X A av s i n' record') :
    n' = n ∧ record' = record := by
  obtain ⟨text, member, more, hpath, hn, recDesc, m, old, data, hdesc, hm, hold, -, hdata, hrec⟩ :=
    h.path
  obtain ⟨text', member', more', hpath', hn', recDesc', m', old', data', hdesc', hm', hold', -,
    hdata', hrec'⟩ := h'.path
  rw [hpath] at hpath'
  cases hpath'
  rw [hn] at hn'
  cases hn'
  rw [hdesc] at hdesc'
  cases hdesc'
  rw [hm] at hm'
  cases hm'
  rw [hold] at hold'
  cases hold'
  rw [hdata] at hdata'
  cases hdata'
  rw [hrec] at hrec'
  cases hrec'
  exact ⟨rfl, rfl⟩

/-- The named member of the named record is set. -/
theorem chainSet_sets {n : Nat} {record : Record X.toTables i}
    (h : SetsMember X A (arg :: value :: rest) s i n record) :
    mibChainSetByName A (mapped arg) value s =
      some ((X.chainEntry i).mibType, s.setChain i ((s.chains i).set n record)) := by
  have hchain : chainIndex X (nameOf arg) = some i := h.chain
  obtain ⟨text, member, more, hpath, hn, recDesc, m, old, data, hdesc, hm, hold, hcomplete, hdata,
    hrecord⟩ := h.path
  obtain ⟨htotal, hget, hupdate⟩ := h.answered
  obtain ⟨hread, hsent⟩ := recordNumber_read hn
  have haccepted : stringToMibFails X.toTables (cstr value) m.type = false :=
    complete_accepted hcomplete
  have hpath : pathOf arg = text :: member :: more := hpath
  have hrange : (n : Int) < (s.chains i).length :=
    Int.ofNat_lt.mpr (List.getElem?_eq_some_iff.mp hold).1
  rw [mibChainSetByName, tokens_mapped hchain, hpath]
  simp only [hchain, htotal, hread, hsent, hrange, hdesc, hget, hold, hm, hupdate, if_true,
    Option.getD_some]
  rw [stringToMibAt_accepted _ _ haccepted]
  have hdata : stringToMib X.toTables value m.type m.size.toNat = some data := hdata
  rw [hdata, Option.bind_some, hrecord, Option.map_some]

theorem setItem_chain (hlength : (mapped arg).length < 100)
    (hchain : chainIndex X (nameOf arg) = some i) :
    setItem A (arg :: value :: rest) s =
      (mibChainSetByName A (mapped arg) value s).map fun r =>
        ⟨r.2, r.1 = .unknown, some rest⟩ := by
  rw [setItem, resolve_chain hlength hchain]

/-- Without a member that is set, the code is right only about a name that is not whole, and about a
chain without a descriptor. -/
theorem chainSet_nothing {text member : Bytes} {more : List Bytes}
    (hchain : chainIndex X (nameOf arg) = some i) (hpath : pathOf arg = text :: member :: more) :
    (∃ r, mibChainSetByName A (mapped arg) value s = some r ∧ r.2 = s ∧ r.1 = .unknown) ↔
      (X.chainEntry i).recordDesc = none ∧
        s32 (strtoul 0 text) < (if A.total then (s.chains i).length else 0 : Int) := by
  rw [mibChainSetByName, tokens_mapped hchain, hpath]
  simp only [hchain]
  by_cases hrange : s32 (strtoul 0 text) < (if A.total then (s.chains i).length else 0 : Int)
  · rw [if_pos hrange]
    cases hdesc : (X.chainEntry i).recordDesc with
    | none => exact iff_of_true ⟨_, rfl, rfl, rfl⟩ ⟨rfl, hrange⟩
    | some recDesc =>
      refine iff_of_false ?_ fun h => by cases h.1
      rintro ⟨r, hr, -, hunknown⟩
      obtain ⟨chainEntry, -, rfl⟩ := Option.map_eq_some_iff.mp hr
      exact chainType_known hchain hunknown
  · rw [if_neg hrange]
    refine iff_of_false ?_ fun h => hrange h.2
    rintro ⟨r, hr, -, hunknown⟩
    cases hr
    exact chainType_known hchain hunknown

/-- A name that is not whole. -/
theorem chainSet_short (hchain : chainIndex X (nameOf arg) = some i)
    (h : ¬∃ text member more, pathOf arg = text :: member :: more) :
    mibChainSetByName A (mapped arg) value s = some (.unknown, s) := by
  rw [mibChainSetByName, tokens_mapped hchain]
  split
  · rename_i htokens
    exact absurd ⟨_, _, _, (List.cons.inj htokens).2⟩ h
  · rfl

/-- The condition for an item that sets no member. -/
theorem memberFits_nothing (h : ¬∃ n record, SetsMember X A (arg :: value :: rest) s i n record) :
    MemberFits X A (arg :: value :: rest) s i ↔
      ∀ text member more, pathOf arg = text :: member :: more →
        (X.chainEntry i).recordDesc = none ∧
          s32 (strtoul 0 text) < (if A.total then (s.chains i).length else 0 : Int) := by
  rw [MemberFits]
  split
  · rename_i text member more hpath
    rw [or_iff_left h]
    constructor
    · intro hin text' member' more' hpath'
      have hsame := hpath.symm.trans hpath'
      cases hsame
      exact hin
    · intro hin
      exact hin text member more hpath
  · rename_i hshort
    exact iff_of_true trivial fun text member more hpath =>
      absurd hpath (hshort text member more)

theorem member_right (hlength : (mapped arg).length < 100)
    (hchain : chainIndex X (nameOf arg) = some i) :
    (∃ st, setItem A (arg :: value :: rest) s = some st ∧
      Right (SetDemands A (arg :: value :: rest) s) s st) ↔
        MemberFits X A (arg :: value :: rest) s i := by
  rw [setItem_chain hlength hchain]
  by_cases hsets : ∃ n record, SetsMember X A (arg :: value :: rest) s i n record
  · obtain ⟨n, record, hset⟩ := hsets
    refine iff_of_true ⟨_, congrArg (Option.map _) (chainSet_sets hset), ?_⟩ ?_
    · rw [right_done (SetDemands.member (Nat.le_add_left 2 _) hset)]
      intro s'' hs''
      obtain ⟨n', record', hset', rfl⟩ := demands_member hchain hs''
      obtain ⟨rfl, rfl⟩ := setsMember_unique hset hset'
      rfl
    · rw [MemberFits]
      split
      · exact Or.inr ⟨n, record, hset⟩
      · trivial
  · have hnone : ∀ s', ¬SetDemands A (arg :: value :: rest) s s' := by
      intro s' hs'
      obtain ⟨n, record, hset, -⟩ := demands_member hchain hs'
      exact hsets ⟨n, record, hset⟩
    simp only [right_nothing hnone]
    rw [step_nothing]
    rw [memberFits_nothing hsets]
    by_cases hwhole : ∃ text member more, pathOf arg = text :: member :: more
    · obtain ⟨text, member, more, hpath⟩ := hwhole
      rw [chainSet_nothing hchain hpath]
      constructor
      · intro h text' member' more' hpath'
        rw [hpath] at hpath'
        cases hpath'
        exact h
      · intro h
        exact h text member more hpath
    · exact iff_of_true ⟨_, chainSet_short hchain hwhole, rfl, rfl⟩ fun text member more hpath =>
        absurd ⟨text, member, more, hpath⟩ hwhole

/-- An item that names nothing asks for nothing. -/
theorem demands_other (hentry : tableEntry X (mapped arg) = none)
    (hchain : chainIndex X (nameOf arg) = none) (s' : Store X) :
    ¬SetDemands A (arg :: value :: rest) s s' := by
  intro hs'
  cases hs' with
  | entry length sets =>
    have hsome := sets.entry
    rw [List.headD_cons, hentry] at hsome
    cases hsome
  | member length sets =>
    have hsome := sets.chain
    rw [List.headD_cons, hchain] at hsome
    cases hsome

theorem setItem_other (hlength : (mapped arg).length < 100)
    (hentry : tableEntry X (mapped arg) = none) (hchain : chainIndex X (nameOf arg) = none) :
    setItem A (arg :: value :: rest) s = some ⟨s, true, none⟩ := by
  rw [setItem]
  cases hname : tableEntry X (nameOf arg) with
  | some e =>
    rw [resolve_table hlength hname]
    simp only [hentry]
  | none => rw [resolve_unknown hlength hname hchain]

/-- An item of `set` does what it is to do, or nothing with an error, exactly if it fits. -/
theorem setItem_right {av : List Bytes} (hne : av ≠ []) :
    (∃ st, setItem A av s = some st ∧ Right (SetDemands A av s) s st) ↔ SetFits X A av s := by
  match av with
  | [] => exact absurd rfl hne
  | [arg] =>
    have hfew : ¬2 ≤ [arg].length := Nat.not_succ_le_self 1
    have hnone : ∀ s', ¬SetDemands A [arg] s s' := by
      intro s' hs'
      cases hs' with
      | entry length | member length => exact hfew length
    simp only [right_nothing hnone]
    refine iff_of_false ?_ fun h => hfew h.1
    rintro ⟨st, hst, -, herror⟩
    cases hst
    cases herror
  | arg :: value :: rest =>
    have htwo : 2 ≤ (arg :: value :: rest).length := Nat.le_add_left 2 _
    rw [SetFits, and_iff_right htwo]
    by_cases hlength : (mapped arg).length < 100
    · rw [List.headD_cons, and_iff_right hlength]
      cases hentry : tableEntry X (mapped arg) with
      | some e =>
        have hchain : chainIndex X (nameOf arg) = none := by
          rw [nameOf_entry hentry]
          exact entry_no_chain hentry
        rw [entry_right hlength hentry]
        constructor
        · intro h
          refine ⟨fun e' he' => Option.some.inj he' ▸ h, fun i hi => ?_⟩
          rw [hchain] at hi
          cases hi
        · intro h
          exact h.1 e rfl
      | none =>
        cases hchain : chainIndex X (nameOf arg) with
        | some i =>
          rw [member_right hlength hchain]
          constructor
          · intro h
            exact ⟨nofun, fun i' hi' => Option.some.inj hi' ▸ h⟩
          · intro h
            exact h.2 i rfl
        | none =>
          simp only [right_nothing (demands_other hentry hchain)]
          exact iff_of_true ⟨_, setItem_other hlength hentry hchain, rfl, rfl⟩ ⟨nofun, nofun⟩
    · refine iff_of_false ?_ fun h => hlength h.1
      rintro ⟨st, hst, -⟩
      rw [setItem, resolve_long hlength] at hst
      cases hst

end MibTool
