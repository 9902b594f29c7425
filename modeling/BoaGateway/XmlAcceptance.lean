import Mathlib.Data.Finset.Dedup
import BoaGateway.XmlBlocks
import BoaGateway.XmlChainNodes
import BoaGateway.XmlEffects

/-!
# Which accepted files are loaded

A file that the check accepts and whose values have texts of their types is loaded exactly if
its blocks are closed before the trailer, the blocks of known chains are taken and the records
are those of fewer than a hundred chains.
-/

namespace XmlAcceptance

open ByteBlocks Texts TextFiles MibTypes MibValue MibChain MibTable StringTermination XmlLines
  XmlLoad XmlEffects XmlGrammar XmlBlocks

variable (X : XmlTables) (dtype : ConfigData)

/-- The index of the chain that the first line of a block names, and what stands behind the
name. -/
def blockChain (line : Bytes) : Option (Nat × Bytes) :=
  (quotedToken line).bind fun name =>
    let i := chainNamed X.toTables dtype name.1
    if i < X.chainTable.length then some (i, name.2) else none

/-- The chain of which a block gives a record. -/
def recordOf (line : Bytes) (block : Body) : List Nat :=
  match blockChain X dtype line with
  | none => []
  | some (i, tail) =>
    if block.blank ((X.chainEntry i).recordDesc.getD []) = true ∧ chainIndex tail = -1 then []
    else [i]

/-- The part of the file that the loader is asked for has the chains. -/
def takesChains (action : ConfigMib) : Prop := action = .all ∨ action = .chain

instance (action : ConfigMib) : Decidable (takesChains action) :=
  inferInstanceAs (Decidable (_ ∨ _))

end XmlAcceptance

namespace XmlGrammar.Body

open ByteBlocks MibTypes XmlLines XmlLoad XmlBlocks XmlAcceptance

variable (X : XmlTables) (dtype : ConfigData)

/-- Every value has a text that its entry or its member can have. -/
def ValuesValid : Body → Prop
  | done => True
  | value line rest =>
    (∀ name tail, quotedName line = some (name, tail) → ∀ e ∈ entryNamed X dtype name,
      ∀ string ∈ quotedValue tail, ValidText X.toTables string e.type e.size) ∧ rest.ValuesValid
  | chain line block _ rest =>
    (∀ i tail, blockChain X dtype line = some (i, tail) →
      ∀ desc ∈ (X.chainEntry i).recordDesc, block.MembersValid X.toTables desc) ∧ rest.ValuesValid

/-- Every block of a known chain is taken. -/
def BlocksTaken : Body → Prop
  | done => True
  | value _ rest => rest.BlocksTaken
  | chain line block _ rest =>
    (∀ i tail, blockChain X dtype line = some (i, tail) →
      block.Taken (X.chainEntry i).recordDesc []) ∧ rest.BlocksTaken

/-- The chains of the records, in the order of their blocks. -/
def recorded : Body → List Nat
  | done => []
  | value _ rest => rest.recorded
  | chain line block _ rest => recordOf X dtype line block ++ rest.recorded

/-- The blocks are taken, and their records are those of fewer than a hundred chains. -/
def Loads (action : ConfigMib) (body : Body) : Prop :=
  takesChains action → body.BlocksTaken X dtype ∧ (body.recorded X dtype).toFinset.card < 100

end XmlGrammar.Body

namespace XmlAcceptance

open ByteBlocks Texts TextFiles MibTypes MibValue MibChain MibTable StringTermination XmlLines
  XmlLoad XmlEffects XmlGrammar XmlBlocks XmlChainNodes

/-- The lines of a text are a header, the body and a trailer, but for blank lines. -/
def Reads (content : Bytes) (body : Body) : Prop :=
  ∃ header trailer, texts (openFile content).lines = header :: (body.lines ++ [trailer]) ∧
    body.Formed ∧ lineKind trailer = .trailer

theorem Reads.unique {content : Bytes} {body body' : Body} (h : Reads content body)
    (h' : Reads content body') : body = body' := by
  obtain ⟨header, trailer, htexts, hbody, htrailer⟩ := h
  obtain ⟨header', trailer', htexts', hbody', htrailer'⟩ := h'
  have heq := (List.cons.inj (htexts.symm.trans htexts')).2
  exact (Body.lines_inj hbody hbody' (Or.inr htrailer) (Or.inr htrailer') heq).1

variable {X : XmlTables} {dtype : ConfigData}

theorem storedBytes_valid {e : MibTableEntry} (he : e ∈ X.mibTable) {string data : Bytes}
    (hvalid : ValidText X.toTables string e.type e.size)
    (hdata : stringToMib X.toTables string e.type e.size = some data)
    {value buffer : Block maxMibValStrLen} (hvalue : buffer.write 0 data = some value) :
    ∃ stored, storedBytes e value = some (some stored) := by
  obtain ⟨-, -, hstring⟩ := hvalid
  rw [storedBytes]
  by_cases htype : e.type.isString = true
  · have hcopy : data = strncpy string e.size := by
      have htypes : e.type = .string ∨ e.type = .encryptString := by
        revert htype
        cases e.type <;> simp [TypeT.isString]
      rcases htypes with htypes | htypes <;> rw [htypes] at hdata <;>
        exact (Option.some.inj hdata).symm
    have hnul : (0 : UInt8) ∈ data := by
      rw [hcopy]
      exact strncpy_nul (hstring htype)
    have hlen : strlen data < e.size := by
      have := strlen_lt_of_nul hnul
      rwa [hcopy, strncpy_length, ← hcopy] at this
    obtain ⟨-, hbytes⟩ := Block.write_eq_some_iff.mp hvalue
    rw [List.take_zero, List.nil_append] at hbytes
    rw [if_pos htype, strcpyFrom, List.drop_zero, hbytes,
      if_pos (List.mem_append_left _ hnul), cstr_append_of_nul hnul, Option.map_some, if_neg]
    · exact ⟨_, rfl⟩
    · rw [List.length_append, List.length_singleton]
      exact Nat.not_lt_of_le hlen
  · have hcopied : isCopied e.type = true := by
      obtain ⟨hword, hlong, hobject⟩ := X.mibTable_value e he
      revert htype hword hlong hobject
      cases e.type <;> simp [TypeT.isString, isCopied]
    have hroom := X.mibTable_buffer e he
    have hle := size_le_footprint e
    obtain ⟨v, hv⟩ := value.read_fits (show 0 + e.size ≤ maxMibValStrLen by omega)
    rw [if_neg htype, if_pos hcopied, hv]
    exact ⟨_, rfl⟩

/-- A value line is accepted if the text is one of its entry's type. -/
theorem tableSetting_valid (hcnf : dtype = .current ∨ dtype = .hw)
    (mibvalue : Block maxMibValStrLen) (r : Ram X.toTables) {line : Bytes}
    (hline : lineKind line = .value)
    (hvalid : ∀ name tail, quotedName line = some (name, tail) → ∀ e ∈ entryNamed X dtype name,
      ∀ string ∈ quotedValue tail, ValidText X.toTables string e.type e.size) :
    ∃ r', tableSetting X mibvalue r line dtype = some (true, r') := by
  obtain ⟨hfollows, -⟩ := tableSetting_follows mibvalue r line hcnf
  suffices heffects : ∃ es, valueEffects X mibvalue line dtype = some (true, es) by
    obtain ⟨es, hes⟩ := heffects
    rw [hes] at hfollows
    exact ⟨_, hfollows⟩
  obtain ⟨-, -, -, -, name, tail, string, hname, hstring⟩ := lineKind_value hline
  rw [valueEffects, hname]
  dsimp only
  cases hentry : entryNamed X dtype name with
  | none => exact ⟨_, rfl⟩
  | some e =>
  obtain ⟨hfails, hsome, hlong⟩ := hvalid name tail hname e hentry string hstring
  obtain ⟨data, hdata⟩ := Option.isSome_iff_exists.mp hsome
  obtain ⟨he, m, hm⟩ := entryNamed_mem hcnf hentry
  have hlen := stringToMib_length_le hdata
  have hroom := X.mibTable_buffer e he
  rw [MibTableEntry.footprint] at hroom
  obtain ⟨value, hvalue⟩ := mibvalue.write_fits (show 0 + data.length ≤ maxMibValStrLen by omega)
  obtain ⟨stored, hstored⟩ := storedBytes_valid he ⟨hfails, hsome, hlong⟩ hdata hvalue
  dsimp only
  rw [hstring]
  dsimp only
  rw [hfails, if_neg Bool.false_ne_true, hdata, Option.bind_some, hvalue]
  dsimp only
  rw [hstored, hm]
  exact ⟨_, rfl⟩

theorem blockChain_eq {line name tail : Bytes} (htoken : quotedToken line = some (name, tail)) :
    blockChain X dtype line =
      if chainNamed X.toTables dtype name < X.chainTable.length then
        some (chainNamed X.toTables dtype name, tail) else none := by
  rw [blockChain, htoken]
  rfl

theorem chainSetting_closes {configUpdated : Bool} {l l' : Loading X} {s s' : Stream}
    {ts : List Bytes} {line : Bytes} (hs : Holds s ts) (hlisting : Listing ts)
    (h : chainSetting configUpdated l s line dtype = some (true, l', s')) :
    Closes (fun block => ∀ i tail, blockChain X dtype line = some (i, tail) →
      block.Taken (X.chainEntry i).recordDesc []) ts s' := by
  unfold chainSetting at h
  cases htoken : quotedToken line with
  | none =>
    rw [htoken] at h
    cases h
  | some token =>
  obtain ⟨name, tail⟩ := token
  have hchain : blockChain X dtype line = _ := blockChain_eq htoken
  rw [htoken] at h
  dsimp only at h
  split at h
  · rename_i hlt
    rw [if_pos hlt] at hchain
    split at h
    · cases h
    rename_i res entry s₁ hput
    obtain ⟨b, rfl⟩ : ∃ b, res = some b := by
      apply Option.isSome_iff_exists.mp
      split at h <;> exact congrArg Prod.fst (Option.some.inj h)
    have hs' : s₁ = s' := by
      split at h <;> exact congrArg (fun res => res.2.2) (Option.some.inj h)
    rw [← hs']
    rcases put_closes hs hlisting hput with
      hspent | ⟨block, close, ts', hblock, hclose, hts, hs₁, hrest, htaken⟩
    · exact Or.inl hspent
    · refine Or.inr ⟨block, close, ts', hblock, hclose, hts, hs₁, hrest, ?_⟩
      intro i tail' hi
      rw [hchain] at hi
      cases hi
      exact htaken
  · rename_i hlt
    rw [if_neg hlt] at hchain
    obtain ⟨⟨b, s₁⟩, hskip, heq⟩ := Option.map_eq_some_iff.mp h
    cases heq
    rcases skip_closes hs hlisting hskip with
      hspent | ⟨block, close, ts', hblock, hclose, hts, hs₁, hrest, -⟩
    · exact Or.inl hspent
    · refine Or.inr ⟨block, close, ts', hblock, hclose, hts, hs₁, hrest, ?_⟩
      intro i tail' hi
      rw [hchain] at hi
      cases hi

theorem clearOnce_head (configUpdated : Bool) (l : Loading X) (i : Nat) :
    (clearOnce configUpdated l i).head = l.head := by
  rw [clearOnce]
  split <;> rfl

theorem chainSetting_body (configUpdated : Bool) (l : Loading X) {line close : Bytes}
    {block : Body} (hline : lineKind line = .chain) (hblock : block.Formed)
    (hclose : lineKind close = .chainEnd) {s : Stream} {ts : List Bytes}
    (hs : Holds s (block.lines ++ close :: ts))
    (htaken : ∀ i tail, blockChain X dtype line = some (i, tail) →
      block.Taken (X.chainEntry i).recordDesc [])
    (hvalid : ∀ i tail, blockChain X dtype line = some (i, tail) →
      ∀ desc ∈ (X.chainEntry i).recordDesc, block.MembersValid X.toTables desc) :
    ∃ l' s', chainSetting configUpdated l s line dtype = some (true, l', s') ∧ Holds s' ts ∧
      s'.lines.length < s.lines.length ∧
      l'.head.map (·.1) = l.head.map (·.1) ++ recordOf X dtype line block := by
  obtain ⟨-, -, -, -, name, tail, htoken⟩ := lineKind_chain hline
  have hchain : blockChain X dtype line = _ := blockChain_eq htoken
  rw [chainSetting, htoken, recordOf]
  dsimp only
  by_cases hlt : chainNamed X.toTables dtype name < X.chainTable.length
  · rw [if_pos hlt] at hchain ⊢
    have hfits := X.recordDesc_fits _ (chainEntry_mem hlt)
    obtain ⟨entry, s', hput, hs', hlen⟩ := put_body hblock hclose hs (Nat.lt_succ_self _)
      (f := { entry := initialEntry configUpdated
                (clearOnce configUpdated l (chainNamed X.toTables dtype name)).ram
                (chainNamed X.toTables dtype name) (chainIndex tail),
              info := [], emptyChain := true })
      (htaken _ _ hchain) hfits (hvalid _ _ hchain) (fun _ _ obj hobj => by cases hobj) (le_refl 0)
      (Int.zero_add _).le
    rw [hput, hchain, Bool.true_and]
    dsimp only
    by_cases hempty : block.blank ((X.chainEntry
        (chainNamed X.toTables dtype name)).recordDesc.getD []) = true ∧ chainIndex tail = -1
    · rw [if_pos hempty, hempty.1, if_neg (by simp [hempty.2])]
      exact ⟨_, s', rfl, hs', hlen, by rw [clearOnce_head, List.append_nil]⟩
    · have hkept : some (block.blank ((X.chainEntry
          (chainNamed X.toTables dtype name)).recordDesc.getD [])) = some false ∨
          chainIndex tail ≠ -1 := by
        by_cases hindex : chainIndex tail = -1
        · left
          rw [Option.some.injEq, Bool.eq_false_iff]
          exact fun hblank => hempty ⟨hblank, hindex⟩
        · exact Or.inr hindex
      rw [if_neg hempty, if_pos hkept]
      exact ⟨_, s', rfl, hs', hlen, by rw [List.map_append, clearOnce_head]; rfl⟩
  · rw [if_neg hlt] at hchain ⊢
    obtain ⟨s', hskip, hs', hlen⟩ := skip_body hblock hclose hs (Nat.lt_succ_self _)
    rw [hskip, hchain]
    exact ⟨l, s', rfl, hs', hlen, by simp⟩

theorem updateSetting_closes {call : Call} {l l' : Loading X} {s s' : Stream} {ts : List Bytes}
    {line : Bytes} (hline : lineKind line = .chain) (hs : Holds s ts) (hlisting : Listing ts)
    (h : updateSetting call dtype l s line = some (true, l', s')) :
    Closes (fun block => takesChains call.action → ∀ i tail,
      blockChain X dtype line = some (i, tail) → block.Taken (X.chainEntry i).recordDesc [])
      ts s' := by
  obtain ⟨hchain, -, hvalue, -⟩ := lineKind_chain hline
  rw [updateSetting, hvalue, if_neg Bool.false_ne_true, hchain, if_pos rfl] at h
  split at h
  · rcases chainSetting_closes hs hlisting h with
      hspent | ⟨block, close, ts', hblock, hclose, hts, hs', hrest, htaken⟩
    · exact Or.inl hspent
    · exact Or.inr ⟨block, close, ts', hblock, hclose, hts, hs', hrest, fun _ => htaken⟩
  · rename_i haction
    obtain ⟨⟨b, s₁⟩, hskip, heq⟩ := Option.map_eq_some_iff.mp h
    cases heq
    rcases skip_closes hs hlisting hskip with
      hspent | ⟨block, close, ts', hblock, hclose, hts, hs', hrest, -⟩
    · exact Or.inl hspent
    · exact Or.inr ⟨block, close, ts', hblock, hclose, hts, hs', hrest,
        fun htakes => absurd htakes haction⟩

/-- The main loop meets the trailer only if all blocks before it are closed. -/
theorem loadLines_closed {call : Call} {fuel : Nat} {l l' : Loading X} {s : Stream}
    {ts : List Bytes} (hs : Holds s ts) (hlisting : Listing ts)
    (h : loadLines call dtype fuel l s = some (true, l')) :
    ∃ (body : Body) (trailer : Bytes), ts = body.lines ++ [trailer] ∧ body.Formed ∧
      lineKind trailer = .trailer ∧ (takesChains call.action → body.BlocksTaken X dtype) := by
  induction fuel generalizing l s ts with
  | zero => cases h
  | succ fuel ih =>
    cases ts with
    | nil =>
      obtain ⟨pre, trailer, heq, -⟩ := hlisting
      exact absurd heq (by simp)
    | cons t ts =>
    obtain ⟨s₁, hline, hs₁, -⟩ := hs.getLine_cons
    rw [loadLines, hs.eof, hline, if_neg Bool.false_ne_true] at h
    dsimp only at h
    rcases Listing.cases hlisting with ⟨htrailer, rfl⟩ | ⟨hkind, hrest⟩
    · exact ⟨.done, t, rfl, trivial, htrailer, fun _ => trivial⟩
    rw [not_trailer hkind, if_neg Bool.false_ne_true] at h
    split at h
    · cases h
    · cases h
    rename_i l₁ s₂ hupdate
    rcases hkind with hkind | hkind | hkind
    · obtain ⟨hvalue, -⟩ := lineKind_value hkind
      have hsame : s₁ = s₂ := by
        rw [updateSetting, hvalue, if_pos rfl] at hupdate
        split at hupdate
        · obtain ⟨res, -, heq⟩ := Option.map_eq_some_iff.mp hupdate
          exact congrArg (fun res => res.2.2) heq
        · exact congrArg (fun res => res.2.2) (Option.some.inj hupdate)
      rw [← hsame] at h
      obtain ⟨body, trailer, rfl, hbody, htrailer, htaken⟩ := ih hs₁ hrest h
      exact ⟨.value t body, trailer, rfl, ⟨hkind, hbody⟩, htrailer, htaken⟩
    · rcases updateSetting_closes hkind hs₁ hrest hupdate with
        hspent | ⟨block, close, ts', hblock, hclose, rfl, hs₂, hts', hnow⟩
      · rw [hspent] at h
        cases fuel <;> cases h
      · obtain ⟨body, trailer, rfl, hbody, htrailer, htaken⟩ := ih hs₂ hts' h
        refine ⟨.chain t block close body, trailer, ?_, ⟨hkind, hblock, hclose, hbody⟩, htrailer,
          fun htakes => ⟨hnow htakes, htaken htakes⟩⟩
        rw [Body.chain_lines_append]
    · obtain ⟨hchain, hvalue⟩ := chainEnd_unknown (lineKind_chainEnd hkind)
      rw [updateSetting, hvalue, hchain, if_neg Bool.false_ne_true,
        if_neg Bool.false_ne_true] at hupdate
      cases hupdate

/-- A body of closed blocks is loaded up to the trailer. -/
theorem loadLines_body {call : Call} (hcnf : dtype = .current ∨ dtype = .hw) {body : Body}
    (hbody : body.Formed) {trailer : Bytes} (htrailer : lineKind trailer = .trailer)
    (hvalid : body.ValuesValid X dtype)
    (htaken : takesChains call.action → body.BlocksTaken X dtype) {fuel : Nat} {l : Loading X}
    {s : Stream} (hs : Holds s (body.lines ++ [trailer])) (hfuel : s.lines.length < fuel) :
    ∃ l', loadLines call dtype fuel l s = some (true, l') ∧ l'.head.map (·.1) =
      l.head.map (·.1) ++ if takesChains call.action then body.recorded X dtype else [] := by
  induction body generalizing fuel l s with
  | done =>
    obtain ⟨fuel, rfl⟩ := Nat.exists_eq_add_one_of_ne_zero (Nat.ne_zero_of_lt hfuel)
    obtain ⟨s₁, hline, hs₁, -⟩ := hs.getLine_cons
    refine ⟨l, ?_, by simp [Body.recorded]⟩
    rw [loadLines, hs.eof, hline, if_neg Bool.false_ne_true]
    dsimp only
    rw [(lineKind_trailer htrailer).1, if_pos rfl]
  | value line rest ih =>
    obtain ⟨fuel, rfl⟩ := Nat.exists_eq_add_one_of_ne_zero (Nat.ne_zero_of_lt hfuel)
    obtain ⟨hkind, hrest⟩ := hbody
    obtain ⟨hnow, hlater⟩ := hvalid
    obtain ⟨s₁, hline, hs₁, hlen⟩ := hs.getLine_cons
    obtain ⟨hvalue, -⟩ := lineKind_value hkind
    obtain ⟨r', hupdate⟩ : ∃ r', updateSetting call dtype l s₁ line =
        some (true, { l with ram := r' }, s₁) := by
      rw [updateSetting, hvalue, if_pos rfl]
      split
      · obtain ⟨r', hset⟩ := tableSetting_valid hcnf (call.mibvalue s₁.lines.length) l.ram hkind hnow
        rw [hset]
        exact ⟨r', rfl⟩
      · exact ⟨l.ram, rfl⟩
    obtain ⟨l', hrun, hhead⟩ := ih hrest hlater htaken (l := { l with ram := r' }) hs₁
      (show s₁.lines.length < fuel by omega)
    refine ⟨l', ?_, hhead⟩
    rw [loadLines, hs.eof, hline, if_neg Bool.false_ne_true]
    dsimp only
    rw [not_trailer (Or.inl hkind), if_neg Bool.false_ne_true, hupdate]
    exact hrun
  | chain line block close rest _ ih =>
    obtain ⟨fuel, rfl⟩ := Nat.exists_eq_add_one_of_ne_zero (Nat.ne_zero_of_lt hfuel)
    obtain ⟨hkind, hblock, hclose, hrest⟩ := hbody
    obtain ⟨hnow, hlater⟩ := hvalid
    rw [Body.chain_lines_append] at hs
    obtain ⟨s₁, hline, hs₁, hlen⟩ := hs.getLine_cons
    obtain ⟨hchain, -, hvalue, -⟩ := lineKind_chain hkind
    obtain ⟨l₁, s₂, hupdate, hs₂, hlen₂, hhead₁⟩ : ∃ l₁ s₂, updateSetting call dtype l s₁ line =
        some (true, l₁, s₂) ∧ Holds s₂ (rest.lines ++ [trailer]) ∧
        s₂.lines.length < s₁.lines.length ∧ l₁.head.map (·.1) = l.head.map (·.1) ++
          if takesChains call.action then recordOf X dtype line block else [] := by
      rw [updateSetting, hvalue, if_neg Bool.false_ne_true, hchain, if_pos rfl]
      by_cases htakes : takesChains call.action
      · rw [if_pos htakes, if_pos (show _ ∨ _ from htakes)]
        exact chainSetting_body call.configUpdated l hkind hblock hclose hs₁ (htaken htakes).1 hnow
      · obtain ⟨s₂, hskip, hs₂, hlen₂⟩ := skip_body hblock hclose hs₁ (Nat.lt_succ_self _)
        rw [if_neg htakes, if_neg (show ¬ (_ ∨ _) from htakes), hskip]
        exact ⟨l, s₂, rfl, hs₂, hlen₂, (List.append_nil _).symm⟩
    obtain ⟨l', hrun, hhead⟩ := ih hrest hlater (fun htakes => (htaken htakes).2) (l := l₁) hs₂
      (show s₂.lines.length < fuel by omega)
    refine ⟨l', ?_, ?_⟩
    · rw [loadLines, hs.eof, hline, if_neg Bool.false_ne_true]
      dsimp only
      rw [not_trailer (Or.inr (Or.inl hkind)), if_neg Bool.false_ne_true, hupdate]
      exact hrun
    · rw [hhead, hhead₁, List.append_assoc, Body.recorded]
      split <;> rfl

theorem getChainNodeId_isSome (ids : List Nat) :
    (getChainNodeId ids).isSome = true ↔ ids.toFinset.card < 100 := by
  have hcard : ids.toFinset.card = ids.eraseDups.length := by
    rw [← List.toFinset_card_of_nodup (eraseDups_nodup ids)]
    congr 1
    ext id
    simp [List.mem_eraseDups]
  rw [getChainNodeId_eq, hcard]
  split <;> simp [*]

/-- The records are put in place if there is room for the ids of their chains. -/
theorem updateChainSetting_isSome {head : List ((i : Nat) × Record X.toTables i)}
    (hhead : ∀ node ∈ head, node.1 < X.chainTable.length) (r : Ram X.toTables) :
    (∃ r', updateChainSetting r head = some r') ↔ (head.map (·.1)).toFinset.card < 100 := by
  rw [updateChainSetting]
  split
  · rename_i hempty
    rw [hempty]
    have hterminator : mibChainMib2tblId X.toTables 0 = some X.chainTable.length :=
      mib2tblId_eq_some_iff.mpr (Or.inr ⟨rfl, rfl⟩)
    have hsize : (X.chainEntry X.chainTable.length).perRecordSize = 0 := by
      rw [chainEntry_of_ge le_rfl]
      rfl
    obtain ⟨⟨ok, r'⟩, hadd⟩ := mibChainAdd_isSome (mibChainClear r 0) hterminator
      ((Block.ofBytes []).read_fits (Nat.le_of_eq (by rw [hsize]; rfl)))
    rw [hadd]
    exact ⟨fun _ => by simp, fun _ => ⟨r', rfl⟩⟩
  · have hids : (head.map fun node => (X.chainEntry node.1).id).toFinset.card =
        (head.map (·.1)).toFinset.card := by
      have himage : (head.map fun node => (X.chainEntry node.1).id).toFinset =
          (head.map (·.1)).toFinset.image fun i => (X.chainEntry i).id := by
        ext x
        simp [eq_comm]
      rw [himage]
      apply Finset.card_image_of_injOn
      intro i hi j hj hij
      obtain ⟨node, hnode, rfl⟩ := List.mem_map.mp (List.mem_toFinset.mp hi)
      obtain ⟨node', hnode', rfl⟩ := List.mem_map.mp (List.mem_toFinset.mp hj)
      exact chainEntry_inj (hhead node hnode) (hhead node' hnode') hij
    rw [← hids, ← getChainNodeId_isSome]
    cases getChainNodeId (head.map fun node => (X.chainEntry node.1).id) with
    | none =>
      constructor
      · rintro ⟨r', h⟩
        cases h
      · intro h
        cases h
    | some ids =>
      obtain ⟨r', hadd, -⟩ := addRecords_cases hhead (clearChains r ids)
      exact ⟨fun _ => rfl, fun _ => ⟨r', hadd⟩⟩

/-- An accepted text gives a header, and behind it the lines up to a trailer. -/
theorem checkText_listing {content : Bytes} (h : checkText content = some (some dtype)) :
    ∃ header ts, Holds (openFile content) (header :: ts) ∧ Listing ts := by
  unfold checkText at h
  split at h
  · cases h
  rename_i line rest hlines
  split at h
  swap
  · cases h
  rename_i hline
  split at h
  · cases h
  rename_i status hheader
  obtain ⟨ok, hcheck, hok⟩ := Option.map_eq_some_iff.mp h
  cases ok with
  | false => cases hok
  | true =>
  obtain ⟨hends, hlisting⟩ := checkLines_listing hcheck
  have hall : ∀ l ∈ line :: rest, endsLine l = true := List.forall_mem_cons.mpr ⟨hline, hends⟩
  refine ⟨trimWhiteSpace (cstr line), texts rest, ⟨rfl, ?_, ?_⟩, hlisting⟩
  · exact ended_of_ends (fun l hl => hl) (hlines ▸ hall)
  · rw [hlines, texts_cons, if_neg]
    intro hblank
    rw [hblank] at hheader
    cases hheader

theorem openFile_cons (c : UInt8) (s : Bytes) :
    ∃ l rest, (openFile (c :: s)).lines = (c :: l) :: rest := by
  have hfirst : ∀ (line s : Bytes), ∃ l rest,
      fgetsLines (maxMibValStrLen - 1) (c :: line) s = (c :: l) :: rest := by
    intro line s
    induction s generalizing line with
    | nil => exact ⟨line, [], rfl⟩
    | cons d s ih =>
      rw [fgetsLines]
      split
      · exact ⟨line ++ [d], _, rfl⟩
      · exact ih (line ++ [d])
  rw [openFile, fgetsLines]
  split
  · exact ⟨[], _, rfl⟩
  · exact hfirst [] s

/-- A text that begins with a visible character begins with it as a line. -/
theorem trimWhiteSpace_cons {c : UInt8} (hnul : c ≠ 0) (hspace : isSpace c = false) (l : Bytes) :
    (trimWhiteSpace (cstr (c :: l))).head? = some c := by
  rw [cstr, if_neg hnul, trimWhiteSpace, List.dropWhile_cons, hspace, if_neg Bool.false_ne_true]
  obtain ⟨t, ht⟩ := List.rdropWhile_prefix isSpace (c :: cstr l)
  cases htrim : (c :: cstr l).rdropWhile isSpace with
  | nil =>
    have := List.rdropWhile_eq_nil_iff.mp htrim c List.mem_cons_self
    rw [hspace] at this
    cases this
  | cons d m =>
    rw [htrim, List.cons_append] at ht
    rw [(List.cons.inj ht).1]
    rfl

theorem headerType_head {t : Bytes} {d : ConfigData} (h : headerType t = some d) :
    t.head? = some 60 := by
  rw [headerType] at h
  split at h
  · rename_i heq
    rw [heq]
    rfl
  split at h
  · rename_i heq
    rw [heq]
    rfl
  · cases h

/-- An accepted text begins with a blank or with the header. -/
theorem checkText_head {content : Bytes} (h : checkText content = some (some dtype)) :
    ∃ c s, content = c :: s ∧ c ≠ 0 ∧ (isSpace c = true ∨ c = 60) := by
  cases content with
  | nil => cases h
  | cons c s =>
  refine ⟨c, s, rfl, ?_⟩
  obtain ⟨l, rest, hlines⟩ := openFile_cons c s
  rw [checkText, hlines] at h
  dsimp only at h
  split at h
  swap
  · cases h
  split at h
  · cases h
  rename_i status hheader
  have hnul : c ≠ 0 := by
    rintro rfl
    cases hheader
  refine ⟨hnul, ?_⟩
  cases hspace : isSpace c with
  | true => exact Or.inl rfl
  | false =>
    right
    have hhead := headerType_head hheader
    rw [trimWhiteSpace_cons hnul hspace] at hhead
    exact Option.some.inj hhead

/-- What decryption makes of an accepted text is refused. -/
theorem encrypted_refused {content : Bytes} (h : checkText content = some (some dtype))
    (d : ConfigData) : checkText (xorEncrypt content) ≠ some (some d) := by
  obtain ⟨c, s, rfl, -, hc⟩ := checkText_head h
  intro henc
  rw [xorEncrypt, List.mapIdx_cons] at henc
  obtain ⟨c', s', heq, hnul, hc'⟩ := checkText_head henc
  obtain ⟨rfl, -⟩ := List.cons.inj heq
  rcases hc with hc | rfl
  · rcases isSpace_cases hc with rfl | rfl | rfl | rfl | rfl | rfl <;> revert hc' <;> decide
  · revert hc'
    decide

theorem recorded_lt {body : Body} {i : Nat} (h : i ∈ body.recorded X dtype) :
    i < X.chainTable.length := by
  induction body with
  | done => cases h
  | value line rest ih => exact ih h
  | chain line block close rest _ ih =>
    rcases List.mem_append.mp h with h | h
    · rw [recordOf] at h
      split at h
      · cases h
      rename_i j tail hchain
      obtain ⟨token, -, htoken⟩ := Option.bind_eq_some_iff.mp hchain
      dsimp only at htoken
      split at htoken
      swap
      · cases htoken
      rename_i hlt
      cases htoken
      split at h
      · cases h
      · rw [List.mem_singleton.mp h]
        exact hlt
    · exact ih h

/-- The loader gets to the end of an accepted text exactly if the lines are closed blocks and
values that it takes. -/
theorem accepted_text_loads_iff {content : Bytes}
    (hcheck : checkText (plainText content) = some (some dtype))
    (hvalid : ∀ body, Reads (plainText content) body → body.ValuesValid X dtype)
    {cnfType : ConfigData} (hcnf : cnfType = .unknown ∨ cnfType = dtype) (call : Call)
    (r : Ram X.toTables) :
    (∃ r', loadXmlFile content cnfType call r = some (some dtype, r')) ↔
      ∃ body, Reads (plainText content) body ∧ body.Loads X dtype call.action := by
  have hkind := checkText_type hcheck
  obtain ⟨header, ts, hholds, hlisting⟩ := checkText_listing hcheck
  obtain ⟨s, hline, hs, -⟩ := hholds.getLine_cons
  have hwanted : ¬ (cnfType ≠ .unknown ∧ dtype ≠ cnfType) := by
    rintro ⟨hunknown, hother⟩
    exact hcnf.elim hunknown fun heq => hother heq.symm
  have hload : ∀ l, loadLines call dtype (s.lines.length + 2)
        { ram := r, head := [], chainUpdated := fun _ => false } s = some (true, l) →
      loadXmlFile content cnfType call r =
        (updateChainSetting l.ram l.head).map fun r => (some dtype, r) := by
    intro l hrun
    rw [loadXmlFile, hcheck]
    dsimp only
    rw [if_neg hwanted]
    generalize getLine (openFile (plainText content)) = first at hline
    subst hline
    dsimp only
    rw [hrun]
  -- what a body of the file comes to, once it is read
  have hbody : ∀ body : Body, Reads (plainText content) body →
      (takesChains call.action → body.BlocksTaken X dtype) →
      ((∃ r', loadXmlFile content cnfType call r = some (some dtype, r')) ↔
        (takesChains call.action → (body.recorded X dtype).toFinset.card < 100)) := by
    intro body hreads htaken
    have hvalues := hvalid body hreads
    obtain ⟨header', trailer, htexts, hformed, htrailer⟩ := hreads
    rw [hholds.texts] at htexts
    rw [(List.cons.inj htexts).2] at hs
    obtain ⟨l, hrun, hhead⟩ := loadLines_body hkind hformed htrailer hvalues htaken
      (l := { ram := r, head := [], chainUpdated := fun _ => false }) hs
      (show s.lines.length < s.lines.length + 2 by omega)
    rw [List.map_nil, List.nil_append] at hhead
    have hmem : ∀ node ∈ l.head, node.1 < X.chainTable.length := by
      intro node hnode
      have hmap : node.1 ∈ l.head.map (·.1) := List.mem_map_of_mem hnode
      rw [hhead] at hmap
      split at hmap
      · exact recorded_lt hmap
      · cases hmap
    have hupdate := updateChainSetting_isSome hmem l.ram
    rw [hload l hrun]
    have hresult : (∃ r', (updateChainSetting l.ram l.head).map (fun r => (some dtype, r)) =
        some (some dtype, r')) ↔ ∃ r', updateChainSetting l.ram l.head = some r' := by
      simp [Option.map_eq_some_iff]
    rw [hresult, hupdate, hhead]
    by_cases htakes : takesChains call.action
    · rw [if_pos htakes]
      exact ⟨fun h _ => h, fun h => h htakes⟩
    · rw [if_neg htakes]
      exact ⟨fun _ h => absurd h htakes, fun _ => by simp⟩
  constructor
  · rintro ⟨r', h⟩
    have hrun : ∃ l, loadLines call dtype (s.lines.length + 2)
        { ram := r, head := [], chainUpdated := fun _ => false } s = some (true, l) := by
      rw [loadXmlFile, hcheck] at h
      dsimp only at h
      rw [if_neg hwanted] at h
      generalize getLine (openFile (plainText content)) = first at hline h
      subst hline
      dsimp only at h
      split at h
      · cases h
      · cases h
      · exact ⟨_, by assumption⟩
    obtain ⟨l, hrun⟩ := hrun
    obtain ⟨body, trailer, rfl, hformed, htrailer, htaken⟩ := loadLines_closed hs hlisting hrun
    have hreads : Reads (plainText content) body :=
      ⟨header, trailer, hholds.texts, hformed, htrailer⟩
    exact ⟨body, hreads, fun htakes =>
      ⟨htaken htakes, (hbody body hreads htaken).mp ⟨r', h⟩ htakes⟩⟩
  · rintro ⟨body, hreads, hloads⟩
    exact (hbody body hreads fun htakes => (hloads htakes).1).mpr fun htakes => (hloads htakes).2

/-- An accepted file with valid values is loaded exactly if its kind is wanted, it is not taken
for an encrypted one, and its lines are closed blocks and values that the loader takes. -/
theorem accepted_file_loads_iff {content : Bytes} {checkEnc : Bool}
    (hcheck : checkConfigFile content checkEnc = some (some dtype))
    (hvalid : ∀ body, Reads (plainText content) body → body.ValuesValid X dtype)
    (cnfType : ConfigData) (call : Call) (r : Ram X.toTables) :
    (∃ r', loadXmlFile content cnfType call r = some (some dtype, r')) ↔
      (cnfType = .unknown ∨ cnfType = dtype) ∧
        (checkEnc = true ∨ checkXorEncrypt content = false) ∧
        ∃ body, Reads (plainText content) body ∧ body.Loads X dtype call.action := by
  by_cases hplain : checkEnc = true ∨ checkXorEncrypt content = false
  · have htext : checkText (plainText content) = some (some dtype) := by
      cases checkEnc with
      | true => exact hcheck
      | false =>
        have hnot : checkXorEncrypt content = false := hplain.resolve_left Bool.false_ne_true
        rw [plainText, hnot]
        exact hcheck
    by_cases hcnf : cnfType = .unknown ∨ cnfType = dtype
    · rw [accepted_text_loads_iff htext hvalid hcnf call r]
      exact ⟨fun h => ⟨hcnf, hplain, h⟩, fun h => h.2.2⟩
    · constructor
      · rintro ⟨r', h⟩
        rw [not_or] at hcnf
        rw [loadXmlFile, htext] at h
        dsimp only at h
        rw [if_pos ⟨hcnf.1, fun heq => hcnf.2 heq.symm⟩] at h
        cases h
      · intro h
        exact absurd h.1 hcnf
  · constructor
    · rintro ⟨r', h⟩
      rw [not_or, Bool.not_eq_true, Bool.not_eq_false] at hplain
      rw [hplain.1] at hcheck
      have hrefused := encrypted_refused hcheck
      rw [loadXmlFile, plainText, if_pos hplain.2] at h
      split at h
      · cases h
      · cases h
      · rename_i d hd
        exact absurd hd (hrefused d)
    · intro h
      exact absurd h.2.1 hplain

/-- A value and a block with one member. -/
def closedFile : Bytes := ascii <|
  "<Config_Information_File_8671>\n" ++
  "<Value Name=\"CMCC_AUTO_RESET_RULE_TIME\" Value=\"04:00\"/>\n" ++
  "<chain chainName=\"WLAN_AC_TBL\">\n" ++
  " <Value Name=\"wlanIdx\" Value=\"1\"/>\n" ++
  "</chain>\n" ++
  "</Config_Information_File_8671>\n"

def closedBody : Body :=
  .value (ascii "<Value Name=\"CMCC_AUTO_RESET_RULE_TIME\" Value=\"04:00\"/>") <|
    .chain (ascii "<chain chainName=\"WLAN_AC_TBL\">")
      (.value (ascii "<Value Name=\"wlanIdx\" Value=\"1\"/>") .done) (ascii "</chain>") .done

theorem closedFile_lines : closedFile =
    ascii "<Config_Information_File_8671>\n" ++
      ascii "<Value Name=\"CMCC_AUTO_RESET_RULE_TIME\" Value=\"04:00\"/>\n" ++
      ascii "<chain chainName=\"WLAN_AC_TBL\">\n" ++
      ascii " <Value Name=\"wlanIdx\" Value=\"1\"/>\n" ++ ascii "</chain>\n" ++
      ascii "</Config_Information_File_8671>\n" := by
  rw [closedFile, ascii_append, ascii_append, ascii_append, ascii_append, ascii_append]

theorem closedFile_reads : Reads (plainText closedFile) closedBody := by
  rw [closedFile_lines]
  refine ⟨configHeader, configTrailer, by decide +kernel, ?_, by decide +kernel⟩
  exact ⟨by decide +kernel, by decide +kernel, ⟨by decide +kernel, trivial⟩, by decide +kernel,
    trivial⟩

theorem closedBody_chain {i : Nat} {tail : Bytes} (h : blockChain sampleXmlTables .current
    (ascii "<chain chainName=\"WLAN_AC_TBL\">") = some (i, tail)) : i = 0 := by
  have hzero : blockChain sampleXmlTables .current (ascii "<chain chainName=\"WLAN_AC_TBL\">") =
      some (0, ascii ">") := by
    decide +kernel
  exact (congrArg Prod.fst (Option.some.inj (hzero.symm.trans h))).symm

theorem closedBody_valid : closedBody.ValuesValid sampleXmlTables .current := by
  refine ⟨?_, ?_, trivial⟩
  · intro name tail hname e he string hstring
    have hpieces : quotedName (ascii "<Value Name=\"CMCC_AUTO_RESET_RULE_TIME\" Value=\"04:00\"/>") =
        some (ascii "CMCC_AUTO_RESET_RULE_TIME", ascii " Value=\"04:00\"/>") := by
      decide +kernel
    cases hpieces.symm.trans hname
    have hentry : entryNamed sampleXmlTables .current (ascii "CMCC_AUTO_RESET_RULE_TIME") =
        sampleMibTable.head? := by
      decide +kernel
    cases hentry.symm.trans he
    have htext : quotedValue (ascii " Value=\"04:00\"/>") = some (ascii "04:00") := by
      decide +kernel
    cases htext.symm.trans hstring
    decide +kernel
  · intro i tail h desc hdesc
    rw [closedBody_chain h] at hdesc
    cases hdesc
    refine ⟨?_, trivial⟩
    intro m hm string hstring
    have hmember : valueMember wlanAcDesc (ascii "<Value Name=\"wlanIdx\" Value=\"1\"/>") =
        wlanAcDesc.head? := rfl
    cases hmember.symm.trans hm
    have htext : valueText (ascii "<Value Name=\"wlanIdx\" Value=\"1\"/>") = some (ascii "1") := by
      decide +kernel
    cases htext.symm.trans hstring
    decide +kernel

/-- The file is loaded. -/
theorem closedFile_loads :
    ∃ r', loadXmlFile closedFile .current laterCall acRam = some (some .current, r') := by
  have hvalid : ∀ body, Reads (plainText closedFile) body →
      body.ValuesValid sampleXmlTables .current := by
    intro body hreads
    rw [hreads.unique closedFile_reads]
    exact closedBody_valid
  have hcheck : checkConfigFile closedFile true = some (some .current) := by
    rw [closedFile_lines]
    decide +kernel
  apply (accepted_file_loads_iff hcheck hvalid .current laterCall acRam).mpr
  refine ⟨Or.inr rfl, Or.inl rfl, closedBody, closedFile_reads, fun _ => ⟨⟨?_, trivial⟩, ?_⟩⟩
  · intro i tail h
    rw [closedBody_chain h]
    exact ⟨rfl, trivial⟩
  · decide +kernel

theorem strangerFile_unread (body : Body) : ¬ Reads (plainText strangerFile) body := by
  rintro ⟨header, trailer, htexts, hbody, -⟩
  have hlines : texts (openFile (plainText strangerFile)).lines = [configHeader,
      ascii "<chain chainName=\"WLAN2_AC_TBL\">", configTrailer] := by
    rw [strangerFile_lines]
    decide +kernel
  have heq := (List.cons.inj (hlines.symm.trans htexts)).2
  cases body with
  | done => cases heq
  | value line rest =>
    have hkind := hbody.1
    rw [← (List.cons.inj heq).1] at hkind
    revert hkind
    decide +kernel
  | chain line block close rest =>
    have hlen := congrArg List.length heq
    simp only [Body.lines, List.length_append, List.length_cons, List.length_nil] at hlen
    omega

/-- The check does not see that the block is still open at the trailer. -/
theorem unclosed_file_refused :
    ¬ ∀ (content : Bytes) (checkEnc : Bool) (dtype : ConfigData) (call : Call)
      (r : Ram sampleXmlTables.toTables),
      checkConfigFile content checkEnc = some (some dtype) →
      (∀ body, Reads (plainText content) body → body.ValuesValid sampleXmlTables dtype) →
      ∃ kind r', loadXmlFile content dtype call r = some (some kind, r') := by
  intro hclaim
  obtain ⟨kind, r', hload⟩ := hclaim strangerFile true .current laterCall acRam
    (by rw [strangerFile_lines]; decide +kernel)
    fun body hreads => absurd hreads (strangerFile_unread body)
  have hrefused : (loadXmlFile strangerFile .current laterCall acRam).map Prod.fst = some none := by
    rw [strangerFile_lines]
    decide +kernel
  rw [hload] at hrefused
  cases hrefused

end XmlAcceptance
