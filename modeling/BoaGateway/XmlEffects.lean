import BoaGateway.StringTermination
import BoaGateway.XmlLoad

/-!
# What loading a file changes at once

The lines of a settings file take effect one after the other, before it is known how the file
ends. Which entries they set and which chains they clear does not depend on the settings.
-/

namespace XmlEffects

open ByteBlocks Texts MibTypes MibChain MibContent MibValue MibTable StringTermination XmlLines
  XmlLoad

variable {T : Tables}

/-- A change that a line makes at once. -/
inductive Effect where
  | set (m : MibTbl) (off : Nat) (data : Bytes)
  | clear (i : Nat)

def Effect.apply (r : Ram T) : Effect → Ram T
  | .set m off data => (storeAt r m off data).getD r
  | .clear i => mibChainClear r (T.chainEntry i).id

def applyAll (r : Ram T) (es : List Effect) : Ram T := es.foldl Effect.apply r

/-- The change is one of a value or of a chain that exists. -/
def Effect.Real (T : Tables) : Effect → Prop
  | .set m off data => off + data.length ≤ T.tblSize m ∧ data ≠ []
  | .clear i => i < T.chainTable.length

theorem applyAll_append (r : Ram T) (es es' : List Effect) :
    applyAll r (es ++ es') = applyAll (applyAll r es) es' :=
  List.foldl_append

/-- The bytes that `_mib_set` stores for a value; `some none` if it refuses the value. -/
def storedBytes {n : Nat} (e : MibTableEntry) (value : Block n) : Option (Option Bytes) :=
  if e.type.isString then
    (strcpyFrom value 0).map fun text => if e.size < text.length then none else some text
  else if isCopied e.type then (value.read 0 e.size).map fun data => some data.1
  else some none

theorem mibSet_stored {n : Nat} {e : MibTableEntry} (he : e ∈ T.mibTable) {m : MibTbl}
    (hm : valueTbl e.mibType = some m) (hsize : 0 < e.size) (r : Ram T) (value : Block n) :
    match storedBytes e value with
    | none => mibSet r e.id value = none
    | some none => mibSet r e.id value = some (false, r)
    | some (some data) => mibSet r e.id value = some (true, (Effect.set m e.offset data).apply r) ∧
        (Effect.set m e.offset data).Real T := by
  have hfit := entry_fits he hm
  have hle := size_le_footprint e
  have hstore : ∀ data : Bytes, data.length ≤ e.size → ∃ r', storeAt r m e.offset data = some r' := by
    intro data hdata
    obtain ⟨b, hb⟩ := (r.tbl m).write_fits (show e.offset + data.length ≤ T.tblSize m by omega)
    exact ⟨_, by rw [storeAt, hb]; rfl⟩
  have hset : mibSet r e.id value = setValue r m e value := by
    rw [mibSet, mibInfo_eq he rfl, hm]
  rw [hset, setValue]
  by_cases hstring : e.type.isString = true
  · rw [storedBytes, if_pos hstring, if_pos hstring]
    cases hcopy : strcpyFrom value 0 with
    | none => rfl
    | some text =>
      dsimp only [Option.map_some]
      by_cases hlong : e.size < text.length
      · rw [if_pos hlong, if_pos hlong]
      · rw [if_neg hlong, if_neg hlong]
        obtain ⟨r', hr'⟩ := hstore text (by omega)
        have hne : text ≠ [] := by
          rw [strcpyFrom] at hcopy
          split at hcopy
          · cases hcopy
            simp
          · cases hcopy
        dsimp only
        rw [hr', Effect.apply, hr']
        exact ⟨rfl, by omega, hne⟩
  · rw [storedBytes, if_neg hstring, if_neg hstring]
    by_cases hcopied : isCopied e.type = true
    · rw [if_pos hcopied, if_pos hcopied]
      cases value.read 0 e.size with
      | none => rfl
      | some data =>
        obtain ⟨r', hr'⟩ := hstore data.1 data.2.le
        have hlen := data.2
        dsimp only [Option.map_some]
        rw [hr', Effect.apply, hr']
        refine ⟨rfl, by omega, fun h => ?_⟩
        rw [h] at hlen
        simp at hlen
        omega
    · rw [if_neg hcopied, if_neg hcopied]

/-- What a `<Value` line sets, and whether it is accepted. -/
def valueEffects (X : XmlTables) (mibvalue : Block maxMibValStrLen) (line : Bytes)
    (cnfType : ConfigData) : Option (Bool × List Effect) :=
  match quotedName line with
  | none => some (false, [])
  | some (pname, rest) =>
    match entryNamed X cnfType pname with
    | none => some (true, [])
    | some e =>
      match quotedValue rest with
      | none => some (false, [])
      | some pvalue =>
        if stringToMibFails X.toTables pvalue e.type then some (false, [])
        else
          match (stringToMib X.toTables pvalue e.type e.size).bind (mibvalue.write 0) with
          | none => none
          | some value =>
            match storedBytes e value, valueTbl e.mibType with
            | none, _ => none
            | some (some data), some m => some (true, [.set m e.offset data])
            | _, _ => some (false, [])

variable {X : XmlTables}

/-- What a step does to the settings, given its effects. -/
def Follows {A : Type} (r : Ram X.toTables) (res : Option (A × Ram X.toTables))
    (effects : Option (A × List Effect)) : Prop :=
  res = effects.map (fun e => (e.1, applyAll r e.2)) ∧
    ∀ e ∈ effects, ∀ f ∈ e.2, f.Real X.toTables

theorem Follows.quiet {A : Type} (r : Ram X.toTables) (a : A) :
    Follows r (some (a, r)) (some (a, [])) :=
  ⟨rfl, by rintro _ ⟨⟩ f hf; cases hf⟩

theorem Follows.undefined {A : Type} (r : Ram X.toTables) :
    Follows (A := A) r none none :=
  ⟨rfl, by rintro _ ⟨⟩⟩

/-- An entry that is found has its value in one of the two structures. -/
theorem entryNamed_mem {cnfType : ConfigData} (hcnf : cnfType = .current ∨ cnfType = .hw)
    {pname : Bytes} {e : MibTableEntry} (h : entryNamed X cnfType pname = some e) :
    e ∈ X.mibTable ∧ ∃ m, valueTbl e.mibType = some m := by
  have htype : e.mibType = cnfType := by
    have := List.find?_some h
    simp only [Bool.and_eq_true, decide_eq_true_eq] at this
    exact this.1
  refine ⟨List.mem_of_find?_eq_some h, ?_⟩
  rw [htype]
  rcases hcnf with rfl | rfl
  · exact ⟨.cs, rfl⟩
  · exact ⟨.hs, rfl⟩

theorem tableSetting_follows (mibvalue : Block maxMibValStrLen) (r : Ram X.toTables)
    (line : Bytes) {cnfType : ConfigData} (hcnf : cnfType = .current ∨ cnfType = .hw) :
    Follows r (tableSetting X mibvalue r line cnfType) (valueEffects X mibvalue line cnfType) := by
  unfold tableSetting valueEffects
  cases quotedName line with
  | none => exact .quiet r false
  | some name =>
  dsimp only
  cases hentry : entryNamed X cnfType name.1 with
  | none => exact .quiet r true
  | some e =>
  obtain ⟨he, m, hm⟩ := entryNamed_mem hcnf hentry
  dsimp only
  cases quotedValue name.2 with
  | none => exact .quiet r false
  | some pvalue =>
  dsimp only
  by_cases hfails : stringToMibFails X.toTables pvalue e.type = true
  · rw [if_pos hfails, if_pos hfails]
    exact .quiet r false
  rw [if_neg hfails, if_neg hfails]
  cases (stringToMib X.toTables pvalue e.type e.size).bind (mibvalue.write 0) with
  | none => exact .undefined r
  | some value =>
  dsimp only
  have hset := mibSet_stored he hm (X.mibTable_size e he) r value
  rw [hm]
  cases hstored : storedBytes e value with
  | none =>
    rw [hstored] at hset
    rw [hset]
    exact .undefined r
  | some data =>
    rw [hstored] at hset
    cases data with
    | none =>
      rw [hset]
      exact .quiet r false
    | some data =>
      rw [hset.1]
      refine ⟨rfl, ?_⟩
      rintro _ ⟨⟩ f hf
      rw [List.mem_singleton.mp hf]
      exact hset.2

/-- What a block says besides the record. -/
def outcome {n : Nat} (res : Option (Option Bool × Block n × Stream)) :
    Option (Option Bool × Stream) :=
  res.map fun res => (res.1, res.2.2)

theorem putValue_entry {n : Nat} (base : Int) (desc : Option (List ChainMember)) (pstr : Bytes)
    {f f' : Filling n} (hinfo : f.info = f'.info) (hempty : f.emptyChain = f'.emptyChain) :
    (putValue T base desc pstr f).map (fun g => (g.info, g.emptyChain)) =
      (putValue T base desc pstr f').map fun g => (g.info, g.emptyChain) := by
  unfold putValue
  split
  · simp [hinfo, hempty]
  split
  · rfl
  split
  · simp [hinfo, hempty]
  split
  · simp [hinfo, hempty]
  split
  · simp [hinfo, hempty]
  split
  · rfl
  rename_i m _ _ string _ _ _
  cases stringToMib T string m.type m.size.toNat with
  | none => rfl
  | some data =>
    rw [Option.bind_some, Option.bind_some, Block.write, Block.write]
    by_cases hfit : (base + m.offset).toNat + data.length ≤ n
    · rw [dif_pos hfit, dif_pos hfit]
      simp [hinfo]
    · rw [dif_neg hfit, dif_neg hfit]

theorem outcome_cases {n : Nat} {a b : Option (Option Bool × Block n × Stream)}
    (h : outcome a = outcome b) : (a = none ∧ b = none) ∨
      ∃ res entry entry' s, a = some (res, entry, s) ∧ b = some (res, entry', s) := by
  rcases a with _ | ⟨res, entry, s⟩ <;> rcases b with _ | ⟨res', entry', s'⟩ <;> cases h
  · exact Or.inl ⟨rfl, rfl⟩
  · exact Or.inr ⟨res, entry, entry', s, rfl, rfl⟩

/-- How far a block goes and whether it is empty does not depend on the record. -/
theorem putValueObject_outcome {n : Nat} (fuel : Nat) (s : Stream) (base : Int)
    (desc : Option (List ChainMember)) {f f' : Filling n} (hinfo : f.info = f'.info)
    (hempty : f.emptyChain = f'.emptyChain) :
    outcome (putValueObject T fuel s base desc f) =
      outcome (putValueObject T fuel s base desc f') := by
  induction fuel generalizing s base desc f f' with
  | zero => rfl
  | succ fuel ih =>
    rw [putValueObject, putValueObject, ← hempty, ← hinfo]
    split
    · rfl
    split
    · rfl
    rename_i pstr s₁ _
    split
    · rfl
    split
    · split
      · exact ih s₁ base desc hinfo hempty
      split
      · rfl
      split
      · split
        · rfl
        · exact ih _ base _ rfl rfl
      rename_i m _
      split
      · rfl
      · rfl
      rename_i info k _
      dsimp only
      split
      · generalize base + m.offset + _ = pos
        have hnested : outcome (putValueObject T fuel s₁ pos m.recordDesc
              { entry := f.entry, info := [], emptyChain := true }) =
            outcome (putValueObject T fuel s₁ pos m.recordDesc
              { entry := f'.entry, info := [], emptyChain := true }) := ih s₁ pos _ rfl rfl
        rcases outcome_cases hnested with ⟨h, h'⟩ | ⟨res, entry, entry', s₂, h, h'⟩
        · rw [h, h']
        · rw [h, h']
          cases res with
          | none => rfl
          | some _ => exact ih s₂ base _ rfl rfl
      · split
        · rfl
        · exact ih _ base _ rfl rfl
    split
    · have hvalue := putValue_entry (T := T) base desc pstr hinfo hempty
      cases h : putValue T base desc pstr f with
      | none =>
        rw [h] at hvalue
        rw [Option.map_eq_none_iff.mp hvalue.symm]
      | some g =>
        rw [h] at hvalue
        obtain ⟨g', h', heq⟩ := Option.map_eq_some_iff.mp hvalue.symm
        rw [h']
        exact ih s₁ base desc (congrArg Prod.fst heq).symm (congrArg Prod.snd heq).symm
    · exact ih s₁ base desc rfl rfl

/-- How a block of a chain ends. -/
def blockOutcome (X : XmlTables) (s : Stream) (i : Nat) : Option (Option Bool × Stream) :=
  outcome (putValueObject X.toTables (s.lines.length + 1) s 0 (X.chainEntry i).recordDesc
    { entry := Block.zeros (X.chainEntry i).perRecordSize, info := [], emptyChain := true })

/-- What a chain block clears, whether it is accepted, the chains that are cleared by then and
the lines that are left. -/
def chainEffects (X : XmlTables) (configUpdated : Bool) (chainUpdated : Nat → Bool) (s : Stream)
    (line : Bytes) (cnfType : ConfigData) :
    Option ((Bool × (Nat → Bool) × Stream) × List Effect) :=
  match quotedToken line with
  | none => none
  | some (ptoken, rest) =>
    let i := chainNamed X.toTables cnfType ptoken
    if i < X.chainTable.length then
      let first := !(configUpdated || chainUpdated i)
      let chainUpdated := if first then Function.update chainUpdated i true else chainUpdated
      let once := if first then [Effect.clear i] else []
      (blockOutcome X s i).map fun res =>
        ((res.1.isSome, chainUpdated, res.2),
          if res.1 = some false ∨ chainIndex rest ≠ -1 then once else once ++ [.clear i])
    else (skipValueObject (s.lines.length + 1) s).map fun res => ((true, chainUpdated, res.2), [])

def lineEffects (X : XmlTables) (call : Call) (cnfType : ConfigData) (chainUpdated : Nat → Bool)
    (s : Stream) (line : Bytes) : Option ((Bool × (Nat → Bool) × Stream) × List Effect) :=
  if isValueLine line then
    if call.action = .all ∨ call.action = .table then
      (valueEffects X (call.mibvalue s.lines.length) line cnfType).map fun res =>
        ((res.1, chainUpdated, s), res.2)
    else some ((true, chainUpdated, s), [])
  else if isChainLine line then
    if call.action = .all ∨ call.action = .chain then
      chainEffects X call.configUpdated chainUpdated s line cnfType
    else (skipValueObject (s.lines.length + 1) s).map fun res => ((true, chainUpdated, res.2), [])
  else some ((false, chainUpdated, s), [])

/-- The changes up to the trailer, or up to where the file is given up. -/
def loadEffects (X : XmlTables) (call : Call) (cnfType : ConfigData) :
    Nat → (Nat → Bool) → Stream → Option (Bool × List Effect)
  | 0, _, _ => none
  | fuel + 1, chainUpdated, s =>
    if s.eof then some (false, [])
    else
      match getLine s with
      | (none, s) => loadEffects X call cnfType fuel chainUpdated s
      | (some pstr, s) =>
        if isTrailer pstr then some (true, [])
        else
          match lineEffects X call cnfType chainUpdated s pstr with
          | none => none
          | some ((false, _, _), es) => some (false, es)
          | some ((true, chainUpdated, s), es) =>
            (loadEffects X call cnfType fuel chainUpdated s).map fun res =>
              (res.1, es ++ res.2)

theorem clearOnce_eq (configUpdated : Bool) (l : Loading X) (i : Nat) :
    (clearOnce configUpdated l i).chainUpdated =
        (if !(configUpdated || l.chainUpdated i) then Function.update l.chainUpdated i true
          else l.chainUpdated) ∧
      (clearOnce configUpdated l i).ram =
        applyAll l.ram (if !(configUpdated || l.chainUpdated i) then [Effect.clear i] else []) := by
  unfold clearOnce
  cases configUpdated || l.chainUpdated i <;> exact ⟨rfl, rfl⟩

/-- The settings that a step leaves, besides what else it returns. -/
def leaves (res : Option (Bool × Loading X × Stream)) :
    Option ((Bool × (Nat → Bool) × Stream) × Ram X.toTables) :=
  res.map fun res => ((res.1, res.2.1.chainUpdated, res.2.2), res.2.1.ram)

theorem skip_follows (l : Loading X) (s : Stream) :
    Follows l.ram
      (leaves ((skipValueObject (s.lines.length + 1) s).map fun res => (true, l, res.2)))
      ((skipValueObject (s.lines.length + 1) s).map fun res =>
        ((true, l.chainUpdated, res.2), [])) := by
  cases skipValueObject (s.lines.length + 1) s with
  | none => exact .undefined _
  | some res => exact .quiet _ _

theorem chainSetting_follows (configUpdated : Bool) (l : Loading X) (s : Stream) (line : Bytes)
    (cnfType : ConfigData) :
    Follows l.ram (leaves (chainSetting configUpdated l s line cnfType))
      (chainEffects X configUpdated l.chainUpdated s line cnfType) := by
  unfold chainSetting chainEffects
  cases quotedToken line with
  | none => exact .undefined _
  | some name =>
  dsimp only
  generalize hi : chainNamed X.toTables cnfType name.1 = i
  by_cases hlt : i < X.chainTable.length
  swap
  · rw [if_neg hlt, if_neg hlt]
    exact skip_follows l s
  rw [if_pos hlt, if_pos hlt]
  obtain ⟨hupdated, hram⟩ := clearOnce_eq configUpdated l i
  have hclear : (Effect.clear i).Real X.toTables := hlt
  have houtcome : outcome (putValueObject X.toTables (s.lines.length + 1) s 0
      (X.chainEntry i).recordDesc
      { entry := initialEntry configUpdated (clearOnce configUpdated l i).ram i
          (chainIndex name.2), info := [], emptyChain := true }) = blockOutcome X s i :=
    putValueObject_outcome _ _ _ _ rfl rfl
  rw [blockOutcome] at houtcome ⊢
  rcases outcome_cases houtcome with ⟨h, h'⟩ | ⟨res, entry, entry', s₁, h, h'⟩
  · rw [h, h']
    exact .undefined _
  rw [h, h']
  dsimp only [outcome, Option.map_some]
  by_cases hkept : res = some false ∨ chainIndex name.2 ≠ -1
  · rw [if_pos hkept, if_pos hkept]
    refine ⟨congrArg some (Prod.ext (Prod.ext rfl (Prod.ext hupdated rfl)) hram), ?_⟩
    rintro _ ⟨⟩ f hf
    dsimp only at hf
    split at hf
    · rw [List.mem_singleton.mp hf]
      exact hclear
    · cases hf
  · rw [if_neg hkept, if_neg hkept]
    refine ⟨congrArg some (Prod.ext (Prod.ext rfl (Prod.ext hupdated rfl)) ?_), ?_⟩
    · dsimp only
      rw [applyAll_append, ← hram]
      rfl
    · rintro _ ⟨⟩ f hf
      rcases List.mem_append.mp hf with hf | hf
      · split at hf
        · rw [List.mem_singleton.mp hf]
          exact hclear
        · cases hf
      · rw [List.mem_singleton.mp hf]
        exact hclear

theorem updateSetting_follows (call : Call) {cnfType : ConfigData}
    (hcnf : cnfType = .current ∨ cnfType = .hw) (l : Loading X) (s : Stream) (line : Bytes) :
    Follows l.ram (leaves (updateSetting call cnfType l s line))
      (lineEffects X call cnfType l.chainUpdated s line) := by
  unfold updateSetting lineEffects
  split
  · split
    · obtain ⟨hres, hreal⟩ :=
        tableSetting_follows (call.mibvalue s.lines.length) l.ram line hcnf
      rw [hres]
      cases hvalue : valueEffects X (call.mibvalue s.lines.length) line cnfType with
      | none => exact .undefined _
      | some res =>
        refine ⟨rfl, ?_⟩
        rintro _ ⟨⟩ f hf
        exact hreal res hvalue f hf
    · exact .quiet _ _
  split
  · split
    · exact chainSetting_follows call.configUpdated l s line cnfType
    · exact skip_follows l s
  · exact .quiet _ _

/-- The settings that the main loop leaves are those of its effects. -/
theorem loadLines_follows (call : Call) {cnfType : ConfigData}
    (hcnf : cnfType = .current ∨ cnfType = .hw) (fuel : Nat) (l : Loading X) (s : Stream) :
    Follows l.ram ((loadLines call cnfType fuel l s).map fun res => (res.1, res.2.ram))
      (loadEffects X call cnfType fuel l.chainUpdated s) := by
  induction fuel generalizing l s with
  | zero => exact .undefined _
  | succ fuel ih =>
    rw [loadLines, loadEffects]
    split
    · exact .quiet _ _
    obtain ⟨pstr, s₁⟩ := getLine s
    cases pstr with
    | none => exact ih l s₁
    | some pstr =>
    dsimp only
    split
    · exact .quiet _ _
    obtain ⟨hstep, hreal⟩ := updateSetting_follows call hcnf l s₁ pstr
    cases heffects : lineEffects X call cnfType l.chainUpdated s₁ pstr with
    | none =>
      rw [heffects] at hstep
      rw [Option.map_eq_none_iff.mp hstep]
      exact .undefined _
    | some res =>
    obtain ⟨⟨ok, chainUpdated, s₂⟩, es⟩ := res
    rw [heffects] at hstep hreal
    obtain ⟨⟨ok', l', s'⟩, hrun, heq⟩ := Option.map_eq_some_iff.mp hstep
    have hes : ∀ f ∈ es, f.Real X.toTables := hreal _ rfl
    have hok : ok' = ok := congrArg (fun res => res.1.1) heq
    have hupdated : l'.chainUpdated = chainUpdated := congrArg (fun res => res.1.2.1) heq
    have hstream : s' = s₂ := congrArg (fun res => res.1.2.2) heq
    have hram : l'.ram = applyAll l.ram es := congrArg Prod.snd heq
    subst hok hupdated hstream
    rw [hrun]
    cases ok' with
    | false =>
      refine ⟨congrArg some (Prod.ext rfl hram), ?_⟩
      rintro _ ⟨⟩ f hf
      exact hes f hf
    | true =>
    obtain ⟨hrest, hrestReal⟩ := ih l' s'
    dsimp only
    rw [hrest]
    cases hloop : loadEffects X call cnfType fuel l'.chainUpdated s' with
    | none => exact .undefined _
    | some rest =>
      refine ⟨congrArg some (Prod.ext rfl ?_), ?_⟩
      · dsimp only [Option.map_some]
        rw [applyAll_append, hram]
      · rintro _ ⟨⟩ f hf
        rcases List.mem_append.mp hf with hf | hf
        · exact hes f hf
        · exact hrestReal rest hloop f hf

/-- What the lines of a file set and clear up to the place where the loading ends. -/
def fileEffects (X : XmlTables) (content : Bytes) (cnfType : ConfigData) (call : Call) :
    List Effect :=
  match checkText (plainText content) with
  | none | some none => []
  | some (some dtype) =>
    if cnfType ≠ .unknown ∧ dtype ≠ cnfType then []
    else
      match getLine (openFile (plainText content)) with
      | (none, _) => []
      | (some _, s) =>
        match loadEffects X call dtype (s.lines.length + 2) (fun _ => false) s with
        | none => []
        | some (_, es) => es

theorem checkText_type {content : Bytes} {dtype : ConfigData}
    (h : checkText content = some (some dtype)) : dtype = .current ∨ dtype = .hw := by
  unfold checkText at h
  split at h
  · cases h
  split at h
  · split at h
    · cases h
    · rename_i status hheader
      obtain ⟨ok, -, hok⟩ := Option.map_eq_some_iff.mp h
      cases ok with
      | false => cases hok
      | true =>
        cases hok
        unfold headerType at hheader
        split at hheader
        · cases hheader
          exact Or.inl rfl
        split at hheader
        · cases hheader
          exact Or.inr rfl
        · cases hheader
  · cases h

/-- Whether a file is refused does not depend on the settings, and a file that is refused has
made all its changes. -/
theorem loadXmlFile_refused {content : Bytes} {cnfType : ConfigData} {call : Call}
    {r₀ r₀' : Ram X.toTables} (hfail : loadXmlFile content cnfType call r₀ = some (none, r₀')) :
    (∀ r : Ram X.toTables, loadXmlFile content cnfType call r =
      some (none, applyAll r (fileEffects X content cnfType call))) ∧
    ∀ e ∈ fileEffects X content cnfType call, e.Real X.toTables := by
  unfold loadXmlFile at hfail
  unfold loadXmlFile fileEffects
  cases hcheck : checkText (plainText content) with
  | none =>
    rw [hcheck] at hfail
    cases hfail
  | some status =>
  cases status with
  | none => exact ⟨fun r => rfl, fun e he => absurd he List.not_mem_nil⟩
  | some dtype =>
  rw [hcheck] at hfail
  dsimp only at hfail ⊢
  split
  · exact ⟨fun r => rfl, fun e he => absurd he List.not_mem_nil⟩
  rename_i htype
  rw [if_neg htype] at hfail
  generalize getLine (openFile (plainText content)) = first at hfail ⊢
  obtain ⟨pstr, s⟩ := first
  cases pstr with
  | none => exact ⟨fun r => rfl, fun e he => absurd he List.not_mem_nil⟩
  | some pstr =>
  dsimp only at hfail ⊢
  have hfollows : ∀ r : Ram X.toTables, Follows r
      ((loadLines call dtype (s.lines.length + 2)
        { ram := r, head := [], chainUpdated := fun _ => false } s).map
          fun res => (res.1, res.2.ram))
      (loadEffects X call dtype (s.lines.length + 2) (fun _ => false) s) :=
    fun r => loadLines_follows call (checkText_type hcheck) _ _ s
  cases hloop : loadEffects X call dtype (s.lines.length + 2) (fun _ => false) s with
  | none =>
    rw [hloop] at hfollows
    rw [Option.map_eq_none_iff.mp (hfollows r₀).1] at hfail
    cases hfail
  | some res =>
  obtain ⟨ok, es⟩ := res
  rw [hloop] at hfollows
  have hrun : ∀ r : Ram X.toTables, ∃ l : Loading X, loadLines call dtype (s.lines.length + 2)
      { ram := r, head := [], chainUpdated := fun _ => false } s = some (ok, l) ∧
      l.ram = applyAll r es := by
    intro r
    obtain ⟨⟨ok', l⟩, hrun, heq⟩ := Option.map_eq_some_iff.mp (hfollows r).1
    have hok : ok' = ok := congrArg Prod.fst heq
    subst hok
    exact ⟨l, hrun, congrArg Prod.snd heq⟩
  cases ok with
  | true =>
    obtain ⟨l, hl, -⟩ := hrun r₀
    rw [hl] at hfail
    obtain ⟨r, -, heq⟩ := Option.map_eq_some_iff.mp hfail
    cases heq
  | false =>
    refine ⟨fun r => ?_, fun e he => (hfollows r₀).2 _ rfl e he⟩
    obtain ⟨l, hl, hram⟩ := hrun r
    rw [hl, ← hram]

/-- Some settings are none that a change can leave. -/
theorem Effect.Real.changes {e : Effect} (he : e.Real T) : ∃ r : Ram T, ∀ r', e.apply r' ≠ r := by
  cases e with
  | set m off data =>
    obtain ⟨hin, hne⟩ := he
    obtain ⟨x, data, rfl⟩ := List.exists_cons_of_ne_nil hne
    obtain ⟨y, hy⟩ : ∃ y : UInt8, y ≠ x := ⟨x + 1, by simp⟩
    refine ⟨Ram.setTbl (emptyRam T) m ⟨List.replicate _ y, List.length_replicate⟩, ?_⟩
    intro r' heq
    obtain ⟨b, hb⟩ := (r'.tbl m).write_fits hin
    have hstore : storeAt r' m off (x :: data) = some (Ram.setTbl r' m b) := by
      rw [storeAt, hb]
      rfl
    rw [Effect.apply, hstore, Option.getD_some] at heq
    have htbl : b = ⟨List.replicate _ y, List.length_replicate⟩ := by
      have := congrArg (fun r : Ram T => r.toConfig.tbl m) heq
      simpa [Ram.setTbl] using this
    have hbyte := Block.write_getElem? hb off
    rw [List.length_cons] at hin hbyte
    rw [if_pos (by omega), htbl, Nat.sub_self, List.getElem?_cons_zero,
      List.getElem?_replicate_of_lt (by omega)] at hbyte
    exact hy (Option.some.inj hbyte)
  | clear i =>
    have hi : i < T.chainTable.length := he
    refine ⟨Ram.setChain (emptyRam T) i [Block.zeros _], ?_⟩
    intro r' heq
    have hchain := congrArg (fun r : Ram T => r.chains i) heq
    simp only [Effect.apply, mibChainClear, mib2tblId_entry hi, setChain_chains,
      Function.update_self] at hchain
    cases hchain

/-- A file that is refused leaves all settings as they are exactly if none of the lines that
were read has set an entry or cleared a chain. -/
theorem refused_file_changes_nothing_iff {content : Bytes} {cnfType : ConfigData} {call : Call}
    {r₀ r₀' : Ram X.toTables} (hfail : loadXmlFile content cnfType call r₀ = some (none, r₀')) :
    (∀ r r' : Ram X.toTables, loadXmlFile content cnfType call r = some (none, r') → r' = r) ↔
      fileEffects X content cnfType call = [] := by
  obtain ⟨hload, hreal⟩ := loadXmlFile_refused hfail
  constructor
  · intro hsame
    rcases List.eq_nil_or_concat (fileEffects X content cnfType call) with hnil | ⟨es, e, hes⟩
    · exact hnil
    · exfalso
      rw [hes] at hload hreal
      rw [List.concat_eq_append] at hload hreal
      obtain ⟨r, hr⟩ := (hreal e (by simp)).changes
      have hfinal := hsame r _ (hload r)
      rw [applyAll_append] at hfinal
      exact hr _ hfinal
  · intro hnil r r' h
    rw [hload r, hnil] at h
    cases h
    rfl

/-- A call while the system runs, with nothing in the value buffer. -/
def laterCall : Call where
  action := .all
  configUpdated := true
  mibvalue := fun _ => Block.zeros _

/-- One access rule on top of the empty configuration. -/
def acRam : Ram sampleXmlTables.toTables :=
  { emptyRam _ with
    chains := Function.update (emptyRam sampleXmlTables.toTables).chains 0
      [⟨[0, 2, 3, 4, 5, 6, 7], rfl⟩] }

/-- A block with an unknown name that is not closed. -/
def strangerFile : Bytes := ascii <|
  "<Config_Information_File_8671>\n" ++
  "<chain chainName=\"WLAN2_AC_TBL\">\n" ++
  "</Config_Information_File_8671>\n"

theorem strangerFile_lines : strangerFile =
    ascii "<Config_Information_File_8671>\n" ++ ascii "<chain chainName=\"WLAN2_AC_TBL\">\n" ++
      ascii "</Config_Information_File_8671>\n" := by
  rw [strangerFile, ascii_append, ascii_append]

theorem strangerFile_changes_nothing :
    fileEffects sampleXmlTables strangerFile .current laterCall = [] ∧
      ∀ r r' : Ram sampleXmlTables.toTables,
        loadXmlFile strangerFile .current laterCall r = some (none, r') → r' = r := by
  have hrun : (loadXmlFile strangerFile .current laterCall acRam).map Prod.fst = some none := by
    rw [strangerFile_lines]
    decide +kernel
  obtain ⟨⟨res, r'⟩, hload, rfl⟩ := Option.map_eq_some_iff.mp hrun
  have hnone : fileEffects sampleXmlTables strangerFile .current laterCall = [] := by
    rw [strangerFile_lines]
    decide +kernel
  exact ⟨hnone, (refused_file_changes_nothing_iff hload).mpr hnone⟩

/-- An empty block, and behind it one that is not closed. -/
def unclosedFile : Bytes := ascii <|
  "<Config_Information_File_8671>\n" ++
  "<chain chainName=\"WLAN_AC_TBL\">\n" ++
  "</chain>\n" ++
  "<chain chainName=\"PORT_FW_ADVANCE_TBL\">\n" ++
  "</Config_Information_File_8671>\n"

theorem unclosedFile_lines : unclosedFile =
    ascii "<Config_Information_File_8671>\n" ++ ascii "<chain chainName=\"WLAN_AC_TBL\">\n" ++
      ascii "</chain>\n" ++ ascii "<chain chainName=\"PORT_FW_ADVANCE_TBL\">\n" ++
      ascii "</Config_Information_File_8671>\n" := by
  rw [unclosedFile, ascii_append, ascii_append, ascii_append, ascii_append]

/-- The first block has cleared its chain before the second one runs over the trailer. -/
theorem refused_file_clears_chain :
    ¬ ∀ (content : Bytes) (cnfType : ConfigData) (call : Call)
      (r r' : Ram sampleXmlTables.toTables),
      loadXmlFile content cnfType call r = some (none, r') → r' = r := by
  intro hclaim
  have hrun : (loadXmlFile unclosedFile .current laterCall acRam).map
      (fun res => (res.1, (res.2.chains 0).length)) = some (none, 0) := by
    rw [unclosedFile_lines]
    decide +kernel
  obtain ⟨⟨res, r'⟩, hload, heq⟩ := Option.map_eq_some_iff.mp hrun
  have hres : res = none := congrArg Prod.fst heq
  have hcleared : (r'.chains 0).length = 0 := congrArg Prod.snd heq
  subst hres
  rw [hclaim _ _ _ _ _ hload] at hcleared
  exact absurd hcleared (by decide)

end XmlEffects
