import BoaGateway.XmlSlots

/-!
# Which trees are read in order

A file can open the levels of a tree in any order and as often as it likes. So whether every
file is read in order depends on the tree alone, and each way in which a level is not in order
has a file that shows it.
-/

namespace XmlSlotOrder

open ByteBlocks Texts TextFiles MibTypes MibValue XmlLines XmlLoad XmlGrammar XmlBlocks XmlSlots

variable {T : Tables} {members desc : List ChainMember} {room : Int} {m : ChainMember}
  {name : Bytes}

def openLine (name : Bytes) : Bytes := ascii "<chain chainName=" ++ quote :: (name ++ [quote, 62])

def closeLine : Bytes := ascii "</chain>"

/-- A line without blanks at its ends is read as it is. -/
theorem getLine_openFile {t : Bytes} (hnl : newline ∉ t) (hnul : (0 : UInt8) ∉ t)
    (hlen : t.length < maxMibValStrLen - 1) {w : Bytes} (ht : t = 60 :: (w ++ [62])) (s : Bytes) :
    getLine (openFile (t ++ newline :: s)) = (some t, openFile s) ∧
      (openFile (t ++ newline :: s)).eof = false ∧
      (openFile (t ++ newline :: s)).lines.length = (openFile s).lines.length + 1 := by
  have hlines : (openFile (t ++ newline :: s)).lines = (t ++ [newline]) :: (openFile s).lines :=
    fgetsLines_line hnl [] hlen s
  have hcstr : cstr (t ++ [newline]) = t ++ [newline] := by
    refine cstr_eq_self ?_
    rw [List.mem_append, not_or]
    exact ⟨hnul, by decide⟩
  have hends : endsLine (t ++ [newline]) = true := by
    rw [endsLine, hcstr, List.getLast?_concat]
    rfl
  have htrim : trimWhiteSpace (cstr (t ++ [newline])) = t := by
    rw [hcstr, ht, trimWhiteSpace, List.cons_append, List.dropWhile_cons_of_neg (by decide),
      ← List.cons_append, List.rdropWhile_concat_pos _ _ _ (by decide), ← List.cons_append,
      List.rdropWhile_concat_neg _ _ _ (by decide)]
  have hne : t ≠ [] := by
    rw [ht]
    exact List.cons_ne_nil _ _
  have heof : ¬ ((openFile s).lines = [] ∧ (t ++ [newline]).getLast? ≠ some newline ∧
      (t ++ [newline]).length < maxMibValStrLen - 1) := fun h => h.2.1 List.getLast?_concat
  refine ⟨?_, rfl, by rw [hlines, List.length_cons]⟩
  rw [getLine, hlines, getLineOf, if_pos hends]
  dsimp only
  rw [htrim, if_neg hne, Stream.behind, decide_eq_false heof]
  rfl

/-- What a name needs to be opened by a line. -/
structure Writable (name : Bytes) : Prop where
  ne : name ≠ []
  nul : (0 : UInt8) ∉ name
  length : name.length ≤ 32
  quote : quote ∉ name
  newline : newline ∉ name

theorem names_writable (h : Names members name m desc) (hfits : Consistent members room) :
    Writable name := by
  obtain ⟨hmem, rfl⟩ := memberNamed_mem h.member
  obtain ⟨hne, hnul, hlen⟩ := (hfits.mem hmem).name
  have hname := h.nameable
  simp only [nameable, Bool.not_eq_true', Bool.or_eq_false_iff, List.contains_eq_mem,
    decide_eq_false_iff_not] at hname
  exact ⟨hne, hnul, hlen, hname.1, hname.2⟩

theorem getLine_open (h : Writable name) (s : Bytes) :
    getLine (openFile (openLine name ++ newline :: s)) = (some (openLine name), openFile s) ∧
      (openFile (openLine name ++ newline :: s)).eof = false ∧
      (openFile (openLine name ++ newline :: s)).lines.length = (openFile s).lines.length + 1 := by
  have hmem : ∀ c : UInt8, c ∉ ascii "<chain chainName=" → c ≠ quote → c ≠ 62 → c ∉ name →
      c ∉ openLine name := by
    intro c hfront hq hclose hname hc
    simp only [openLine, List.mem_append, List.mem_cons, List.not_mem_nil, or_false] at hc
    rcases hc with hc | hc | hc | hc | hc
    · exact hfront hc
    · exact hq hc
    · exact hname hc
    · exact hq hc
    · exact hclose hc
  have hlen : (openLine name).length = name.length + 20 := by
    rw [openLine, List.length_append, List.length_cons, List.length_append]
    have hfront : (ascii "<chain chainName=").length = 17 := rfl
    rw [hfront]
    change 17 + (name.length + 2 + 1) = _
    omega
  refine getLine_openFile (hmem newline (by decide) (by decide) (by decide) h.newline)
    (hmem 0 (by decide) (by decide) (by decide) h.nul) ?_
    (w := ascii "chain chainName=" ++ quote :: (name ++ [quote])) ?_ s
  · have hmax := h.length
    rw [hlen, maxMibValStrLen]
    omega
  · have hfront : ascii "<chain chainName=" = 60 :: ascii "chain chainName=" := rfl
    rw [openLine, hfront]
    simp

theorem getLine_close (s : Bytes) :
    getLine (openFile (closeLine ++ newline :: s)) = (some closeLine, openFile s) ∧
      (openFile (closeLine ++ newline :: s)).eof = false ∧
      (openFile (closeLine ++ newline :: s)).lines.length = (openFile s).lines.length + 1 :=
  getLine_openFile (by decide) (by decide) (by decide) (w := ascii "/chain") rfl s

theorem openLine_kind (h : Writable name) : isChainEnd (openLine name) = false ∧
    isChainLine (openLine name) = true ∧ quotedToken (openLine name) = some (name, [62]) := by
  refine ⟨rfl, rfl, ?_⟩
  rw [quotedToken, openLine, strtok_append (by decide) (by decide)]
  exact strtok_append h.ne h.quote [62]

/-- Where a block goes that is closed at once. -/
def placeOf (base : Int) (m : ChainMember) : Option Int → Place
  | some o => .slot (base + m.offset + o) []
  | none => .ignored

variable {σ : Type} {S : Slots σ} {n : Nat} {base : Int}

section Open

variable (hname : Names members name m desc) (hfits : Consistent members room)
  (fuel : Nat) (s : Bytes) (count : σ) (entry : Block n) (b : Bool)

include hname hfits

theorem placeBlocks_error (hnext : S.next count m = none) :
    placeBlocks S T (fuel + 1) (openFile (openLine name ++ newline :: s)) base (some members)
      count entry b = none := by
  have hwritable := names_writable hname hfits
  obtain ⟨hline, heof, -⟩ := getLine_open hwritable s
  obtain ⟨hend, hchain, htoken⟩ := openLine_kind hwritable
  simp only [placeBlocks, heof, hline, hend, hchain, htoken, hname.member, hnext,
    Bool.false_eq_true, if_false, if_true]

/-- A block of an object that has a slot left. -/
theorem placeBlocks_slot {count' : σ} {offset : Int}
    (hnext : S.next count m = some (some (count', some offset))) :
    placeBlocks S T (fuel + 1) (openFile (openLine name ++ newline :: s)) base (some members)
        count entry b =
      (placeBlocks S T fuel (openFile s) (base + m.offset + offset) m.recordDesc S.start entry
        true).bind fun res =>
        if res.2.1 = none then some ([.slot (base + m.offset + offset) res.1], none, res.2.2)
        else (placeBlocks S T fuel res.2.2.2 base (some members) count' res.2.2.1 false).map
          fun rest => (.slot (base + m.offset + offset) res.1 :: rest.1, rest.2) := by
  have hwritable := names_writable hname hfits
  obtain ⟨hline, heof, -⟩ := getLine_open hwritable s
  obtain ⟨hend, hchain, htoken⟩ := openLine_kind hwritable
  simp only [placeBlocks, heof, hline, hend, hchain, htoken, hname.member, hnext,
    Bool.false_eq_true, if_false, if_true]
  rcases placeBlocks S T fuel (openFile s) (base + m.offset + offset) m.recordDesc S.start entry
    true with _ | ⟨inner, _ | b', entry', s'⟩ <;> rfl

/-- A block of an object whose slots are used up. -/
theorem placeBlocks_ignored {count' : σ} (hnext : S.next count m = some (some (count', none))) :
    placeBlocks S T (fuel + 1) (openFile (openLine name ++ newline :: s)) base (some members)
        count entry b =
      (skipValueObject fuel (openFile s)).bind fun res =>
        (placeBlocks S T fuel res.2 base (some members) count' entry false).map
          fun rest => (.ignored :: rest.1, rest.2) := by
  have hwritable := names_writable hname hfits
  obtain ⟨hline, heof, -⟩ := getLine_open hwritable s
  obtain ⟨hend, hchain, htoken⟩ := openLine_kind hwritable
  simp only [placeBlocks, heof, hline, hend, hchain, htoken, hname.member, hnext,
    Bool.false_eq_true, if_false, if_true]
  rcases skipValueObject fuel (openFile s) with _ | ⟨b', s'⟩ <;> rfl

end Open

theorem placeBlocks_close (fuel : Nat) (s : Bytes) (desc : Option (List ChainMember))
    (count : σ) (entry : Block n) (b : Bool) :
    placeBlocks S T (fuel + 1) (openFile (closeLine ++ newline :: s)) base desc count entry b =
      some ([], some b, entry, openFile s) := by
  obtain ⟨hline, heof, -⟩ := getLine_close s
  rw [placeBlocks, heof, hline, if_neg Bool.false_ne_true]
  rfl

theorem skip_close (fuel : Nat) (s : Bytes) :
    skipValueObject (fuel + 1) (openFile (closeLine ++ newline :: s)) =
      some (false, openFile s) := by
  obtain ⟨hline, heof, -⟩ := getLine_close s
  rw [skipValueObject, heof, hline, if_neg Bool.false_ne_true]
  rfl

/-- A block that is opened and closed at once. -/
theorem placeBlocks_closed (hname : Names members name m desc) (hfits : Consistent members room)
    (fuel : Nat) (s : Bytes) (count : σ) (entry : Block n) (b : Bool) {count' : σ}
    {offset : Option Int} (hnext : S.next count m = some (some (count', offset))) :
    placeBlocks S T (fuel + 2) (openFile (openLine name ++ newline :: (closeLine ++ newline :: s)))
        base (some members) count entry b =
      (placeBlocks S T (fuel + 1) (openFile s) base (some members) count' entry false).map
        fun res => (placeOf base m offset :: res.1, res.2) := by
  cases offset with
  | none =>
    rw [placeBlocks_ignored hname hfits _ _ _ _ _ hnext, skip_close]
    rfl
  | some o =>
    rw [placeBlocks_slot hname hfits _ _ _ _ _ hnext, placeBlocks_close]
    rfl

/-- A file that opens and closes blocks of these names. -/
def openedFile : List Bytes → Bytes
  | [] => []
  | name :: names => openLine name ++ newline :: (closeLine ++ newline :: openedFile names)

/-- The places of some blocks, as long as there is neither an error nor undefined behaviour. -/
def nextAll (S : Slots σ) (base : Int) : σ → List ChainMember → Option (List Place)
  | _, [] => some []
  | count, m :: ms =>
    match S.next count m with
    | some (some (count, offset)) =>
      (nextAll S base count ms).map fun places => placeOf base m offset :: places
    | _ => none

/-- Members that a file can open. -/
def Objects (members ms : List ChainMember) : Prop :=
  ∀ m ∈ ms, ∃ desc, Names members m.name m desc

theorem openedFile_lines (hfits : Consistent members room) {ms : List ChainMember}
    (hms : Objects members ms) :
    (openFile (openedFile (ms.map ChainMember.name))).lines.length = 2 * ms.length := by
  induction ms with
  | nil => rfl
  | cons m ms ih =>
    obtain ⟨⟨desc, hname⟩, hms⟩ := List.forall_mem_cons.mp hms
    rw [List.map_cons, openedFile, (getLine_open (names_writable hname hfits) _).2.2,
      (getLine_close _).2.2, ih hms, List.length_cons]
    omega

/-- The places of a file that opens and closes blocks. -/
theorem placeBlocks_opened (hfits : Consistent members room) {ms : List ChainMember}
    (hms : Objects members ms) (hnext : ∀ count, ∀ m ∈ ms, S.next count m ≠ some none) (fuel : Nat)
    (hfuel : 2 * ms.length < fuel) (count : σ) (entry : Block n) (b : Bool) :
    (placeBlocks S T fuel (openFile (openedFile (ms.map ChainMember.name))) base (some members)
      count entry b).map (·.1) = nextAll S base count ms := by
  induction ms generalizing fuel count b with
  | nil =>
    obtain ⟨fuel, rfl⟩ := Nat.exists_eq_add_one_of_ne_zero (Nat.ne_zero_of_lt hfuel)
    rw [placeBlocks]
    rfl
  | cons m ms ih =>
    obtain ⟨⟨desc, hname⟩, hms⟩ := List.forall_mem_cons.mp hms
    rw [List.length_cons] at hfuel
    obtain ⟨fuel, rfl⟩ : ∃ k, fuel = k + 2 := ⟨fuel - 2, by omega⟩
    rw [List.map_cons, openedFile, nextAll]
    rcases hstep : S.next count m with _ | _ | ⟨count', offset⟩
    · rw [placeBlocks_error hname hfits _ _ _ _ _ hstep]
      rfl
    · exact absurd hstep (hnext count m List.mem_cons_self)
    · rw [placeBlocks_closed hname hfits fuel _ count entry b hstep, Option.map_map]
      dsimp only
      rw [← ih hms (fun count m hm => hnext count m (List.mem_cons_of_mem _ hm)) (fuel + 1)
        (by omega) count' false, Option.map_map]
      rfl

/-- Below an address, the table sends the blocks of every file to the same places as the
counters. -/
def Followed (T : Tables) (n : Nat) (base : Int) (members : List ChainMember) : Prop :=
  ∀ (content : Bytes) (entry : Block n), ∃ places,
    (placeBlocks tableSlots T ((openFile content).lines.length + 1) (openFile content) base
      (some members) tableSlots.start entry true).map (·.1) = some places ∧
    (placeBlocks countSlots T ((openFile content).lines.length + 1) (openFile content) base
      (some members) countSlots.start entry true).map (·.1) = some places

/-- Opening an object is no error. -/
theorem next_object (hname : Names members name m desc) :
    (∀ info, tableSlots.next info m ≠ some none) ∧
      ∀ count, countSlots.next count m ≠ some none := by
  refine ⟨fun info => ?_, fun count => ?_⟩
  · change (getObjectInfo info m).map _ ≠ _
    rw [getObjectInfo, hname.desc]
    dsimp only
    split
    · simp
    split
    · simp
    split <;> simp
  · rw [countSlots_next hname]
    simp

/-- The blocks of a sequence go to the same places. -/
theorem Followed.nextAll (h : Followed T n base members) (hfits : Consistent members room)
    {ms : List ChainMember} (hms : Objects members ms) : ∃ places,
    nextAll tableSlots base tableSlots.start ms = some places ∧
      XmlSlotOrder.nextAll countSlots base countSlots.start ms = some places := by
  obtain ⟨places, htable, hcount⟩ := h (openedFile (ms.map ChainMember.name)) (Block.zeros n)
  rw [placeBlocks_opened hfits hms (fun info m hm => (next_object (hms m hm).choose_spec).1 info) _
    (by rw [openedFile_lines hfits hms]; omega)] at htable
  rw [placeBlocks_opened hfits hms (fun count m hm => (next_object (hms m hm).choose_spec).2 count) _
    (by rw [openedFile_lines hfits hms]; omega)] at hcount
  exact ⟨places, htable, hcount⟩

/-- The counters behind some blocks. -/
def after (S : Slots σ) : σ → List ChainMember → Option σ
  | count, [] => some count
  | count, m :: ms =>
    match S.next count m with
    | some (some (count, _)) => after S count ms
    | _ => none

theorem after_append (count : σ) (ms ms' : List ChainMember) :
    after S count (ms ++ ms') = (after S count ms).bind fun count => after S count ms' := by
  induction ms generalizing count with
  | nil => rfl
  | cons m ms ih =>
    rw [List.cons_append, after, after]
    rcases S.next count m with _ | _ | ⟨count', offset⟩
    · rfl
    · rfl
    · exact ih count'

theorem nextAll_last {count : σ} {ms : List ChainMember} {places : List Place}
    (h : nextAll S base count (ms ++ [m]) = some places) :
    ∃ count' count'' offset, after S count ms = some count' ∧
      S.next count' m = some (some (count'', offset)) ∧
      places.getLast? = some (placeOf base m offset) := by
  induction ms generalizing count places with
  | nil =>
    rw [List.nil_append, nextAll] at h
    rcases hnext : S.next count m with _ | _ | ⟨count', offset⟩
    · rw [hnext] at h
      cases h
    · rw [hnext] at h
      cases h
    · rw [hnext] at h
      cases h
      exact ⟨count, count', offset, rfl, hnext, rfl⟩
  | cons m' ms ih =>
    rw [List.cons_append, nextAll] at h
    rcases hnext : S.next count m' with _ | _ | ⟨count', offset⟩
    · rw [hnext] at h
      cases h
    · rw [hnext] at h
      cases h
    · rw [hnext] at h
      obtain ⟨rest, hrest, rfl⟩ := Option.map_eq_some_iff.mp h
      obtain ⟨c, c', o, hafter, hlast, hplaces⟩ := ih hrest
      refine ⟨c, c', o, ?_, hlast, ?_⟩
      · rw [after, hnext]
        exact hafter
      · rw [List.getLast?_cons, hplaces]
        rfl

theorem placeOf_inj {o o' : Option Int} (h : placeOf base m o = placeOf base m o') : o = o' := by
  cases o <;> cases o' <;> simp_all [placeOf]

/-- After the same blocks, the next one gets the same slot. -/
theorem Followed.same_slot (h : Followed T n base members) (hfits : Consistent members room)
    {ms : List ChainMember} (hms : Objects members (ms ++ [m])) :
    ∃ info count info' count' offset, after tableSlots tableSlots.start ms = some info ∧
      after countSlots countSlots.start ms = some count ∧
      tableSlots.next info m = some (some (info', offset)) ∧
      countSlots.next count m = some (some (count', offset)) := by
  obtain ⟨places, htable, hcount⟩ := h.nextAll hfits hms
  obtain ⟨info, info', o, hinfo, hnext, hlast⟩ := nextAll_last htable
  obtain ⟨count, count', o', hcount', hnext', hlast'⟩ := nextAll_last hcount
  have hsame := placeOf_inj (Option.some.inj (hlast.symm.trans hlast'))
  exact ⟨info, count, info', count', o, hinfo, hcount', hnext, hsame ▸ hnext'⟩

/-- A member whose blocks go into the table. -/
structure Opened (m : ChainMember) (desc : List ChainMember) : Prop where
  object : m.recordDesc = some desc
  unit : unitSize desc ≠ 0

variable {info : List ChainObj}

theorem next_new (h : Opened m desc) (hnew : m.name.take 32 ∉ info.map ChainObj.objName)
    (hroom : info.length < maxObj) :
    ∃ info', tableSlots.next info m = some (some (info', slotOf (newObj m desc))) ∧
      info'.map ChainObj.objName = info.map ChainObj.objName ++ [m.name.take 31] := by
  have hk : info.length < (info ++ [newObj m desc]).length := by simp
  have hnext := tableSlots_next (getObjectInfo_new h.object h.unit
    (fun hfound => hnew ((indexOf_lt_iff info m).mp hfound)) (Nat.ne_of_lt hroom)) hk
  rw [List.getElem_concat_length rfl] at hnext
  refine ⟨_, hnext, ?_⟩
  rw [counted_names, List.map_append]
  rfl

theorem next_full (h : Opened m desc) (hnew : m.name.take 32 ∉ info.map ChainObj.objName)
    (hfull : info.length = maxObj) :
    ∃ info', tableSlots.next info m = some (some (info', slotOf (newObj m desc))) ∧
      info'.map ChainObj.objName = (info.map ChainObj.objName).set 0 (m.name.take 31) := by
  have hk : 0 < (info.set 0 (newObj m desc)).length := by
    rw [List.length_set, hfull]
    decide
  have hnext := tableSlots_next (getObjectInfo_full h.object h.unit
    (fun hfound => hnew ((indexOf_lt_iff info m).mp hfound)) hfull) hk
  rw [List.getElem_set_self] at hnext
  refine ⟨_, hnext, ?_⟩
  rw [counted_names, List.map_set]
  rfl

/-- The table does not take the second member for the first. -/
def Apart (a b : ChainMember) : Prop := b.name.take 32 ≠ a.name.take 31

/-- As long as there is room, new members are added behind the others. -/
theorem after_new {ms : List ChainMember} (hopened : ∀ m ∈ ms, ∃ desc, Opened m desc)
    (hnew : ∀ m ∈ ms, m.name.take 32 ∉ info.map ChainObj.objName) (hapart : ms.Pairwise Apart)
    (hroom : info.length + ms.length ≤ maxObj) :
    ∃ info', after tableSlots info ms = some info' ∧
      info'.map ChainObj.objName =
        info.map ChainObj.objName ++ ms.map fun m => m.name.take 31 := by
  induction ms generalizing info with
  | nil => exact ⟨info, rfl, (List.append_nil _).symm⟩
  | cons m ms ih =>
    obtain ⟨⟨desc, hm⟩, hopened⟩ := List.forall_mem_cons.mp hopened
    obtain ⟨hmnew, hnew⟩ := List.forall_mem_cons.mp hnew
    obtain ⟨hfirst, hapart⟩ := List.pairwise_cons.mp hapart
    rw [List.length_cons] at hroom
    obtain ⟨info', hnext, hnames⟩ := next_new hm hmnew (by omega)
    have hlen : info'.length = info.length + 1 := by
      have hlens := congrArg List.length hnames
      rwa [List.length_append, List.length_map, List.length_map] at hlens
    have hnew' : ∀ b ∈ ms, b.name.take 32 ∉ info'.map ChainObj.objName := by
      intro b hb
      rw [hnames, List.mem_append, List.mem_singleton, not_or]
      exact ⟨hnew b hb, hfirst b hb⟩
    obtain ⟨info'', hafter, hnames'⟩ := ih hopened hnew' hapart (by omega)
    refine ⟨info'', ?_, ?_⟩
    · rw [after, hnext]
      exact hafter
    · rw [hnames', hnames, List.map_cons, List.append_assoc]
      rfl

/-- Behind eight members that are new to the table, the first one starts again. -/
theorem displaced {x : ChainMember} (hx : Opened x desc) {ys : List ChainMember}
    (hys : ∀ y ∈ ys, ∃ desc, Opened y desc) (hlen : ys.length = maxObj)
    (hapart : (x :: ys).Pairwise Apart) (hback : ∀ y ∈ ys, Apart y x) :
    ∃ info info', after tableSlots tableSlots.start (x :: ys) = some info ∧
      tableSlots.next info x = some (some (info', slotOf (newObj x desc))) := by
  have hne : ys ≠ [] := by
    rintro rfl
    cases hlen
  obtain ⟨zs, z, rfl⟩ : ∃ zs z, ys = zs ++ [z] :=
    ⟨ys.dropLast, ys.getLast hne, (List.dropLast_append_getLast hne).symm⟩
  rw [List.length_append, List.length_singleton] at hlen
  rw [← List.cons_append, List.pairwise_append] at hapart
  obtain ⟨hfront, -, hlast⟩ := hapart
  obtain ⟨dz, hz⟩ := hys z (by simp)
  have hall : ∀ y ∈ x :: zs, ∃ desc, Opened y desc :=
    List.forall_mem_cons.mpr ⟨⟨desc, hx⟩, fun y hy => hys y (List.mem_append_left _ hy)⟩
  have hnone : ∀ y ∈ x :: zs, y.name.take 32 ∉ ([] : List ChainObj).map ChainObj.objName :=
    fun _ _ => List.not_mem_nil
  obtain ⟨info, hinfo, hnames⟩ := after_new hall hnone hfront
    (by rw [List.length_cons, List.length_nil]; omega)
  have hfull : info.length = maxObj := by
    have hlens := congrArg List.length hnames
    simp only [List.length_map, List.map_nil, List.nil_append, List.length_cons] at hlens
    omega
  have hznew : z.name.take 32 ∉ info.map ChainObj.objName := by
    rw [hnames, List.map_nil, List.nil_append, List.mem_map]
    rintro ⟨a, ha, heq⟩
    exact hlast a ha z (List.mem_singleton_self z) heq.symm
  obtain ⟨info', hnext, hnames'⟩ := next_full hz hznew hfull
  have hfull' : info'.length = maxObj := by
    have hlens := congrArg List.length hnames'
    rwa [List.length_set, List.length_map, List.length_map, hfull] at hlens
  have hxnew : x.name.take 32 ∉ info'.map ChainObj.objName := by
    rw [hnames', hnames]
    change x.name.take 32 ∉ z.name.take 31 :: zs.map fun m => m.name.take 31
    rw [List.mem_cons, List.mem_map, not_or]
    refine ⟨hback z (by simp), ?_⟩
    rintro ⟨a, ha, heq⟩
    exact hback a (List.mem_append_left _ ha) heq.symm
  obtain ⟨info'', hagain, -⟩ := next_full hx hxnew hfull'
  refine ⟨info', info'', ?_, hagain⟩
  rw [← List.cons_append, after_append]
  rw [show tableSlots.start = ([] : List ChainObj) from rfl, hinfo, Option.bind_some, after, hnext]
  rfl

/-- The counters of the blocks that were opened. -/
theorem after_count {count count' : Bytes → Nat} {ms : List ChainMember}
    (h : after countSlots count ms = some count') (name : Bytes) : count name ≤ count' name := by
  induction ms generalizing count with
  | nil =>
    cases h
    exact Nat.le_refl _
  | cons m ms ih =>
    have hnext : countSlots.next count m = some (m.recordDesc.map fun desc =>
        (Function.update count m.name (count m.name + 1),
          if (count m.name : Int) < capacity m.size desc then some (count m.name * unitSize desc)
          else none)) := rfl
    rw [after, hnext] at h
    cases hdesc : m.recordDesc with
    | none =>
      rw [hdesc] at h
      cases h
    | some desc =>
      rw [hdesc] at h
      refine Nat.le_trans ?_ (ih h)
      rw [Function.update_apply]
      split
      · rename_i heq
        rw [heq]
        exact Nat.le_succ _
      · exact Nat.le_refl _

theorem names_self (h : Names members name m desc) :
    m.name = name ∧ Names members m.name m desc := by
  obtain ⟨-, rfl⟩ := memberNamed_mem h.member
  exact ⟨rfl, h⟩

theorem Followed.units (h : Followed T n base members) (hfits : Consistent members room) :
    ∀ name m desc, Names members name m desc → unitSize desc ≠ 0 := by
  intro name m desc hname hzero
  have hobjects : Objects members ([] ++ [m]) := by
    rintro m' hm'
    rw [List.mem_singleton.mp hm']
    exact ⟨desc, (names_self hname).2⟩
  obtain ⟨info, -, info', -, offset, hinfo, -, hnext, -⟩ := h.same_slot hfits hobjects
  cases hinfo
  have hnone : getObjectInfo [] m = none := by
    rw [getObjectInfo, hname.desc]
    exact if_pos hzero
  change (getObjectInfo [] m).map _ = _ at hnext
  rw [hnone] at hnext
  cases hnext

theorem unit_pos (hfits : Consistent members room) (hname : Names members name m desc)
    (hunit : unitSize desc ≠ 0) : 0 < unitSize desc := by
  obtain ⟨-, hdesc⟩ := (hfits.mem (memberNamed_mem hname.member).1).object hname.desc
  exact lt_of_le_of_ne hdesc.unitSize_nonneg hunit.symm

theorem capacity_tdiv (hfits : Consistent members room) (hname : Names members name m desc) :
    m.size.tdiv (unitSize desc) = capacity m.size desc := by
  obtain ⟨-, hsize, -, -⟩ := (hfits.mem (memberNamed_mem hname.member).1).fits
  exact Int.tdiv_eq_ediv_of_nonneg hsize

/-- An object with slots does not lose its place. -/
theorem Followed.not_displaced (h : Followed T n base members) (hfits : Consistent members room)
    {x : ChainMember} (hx : Names members x.name x desc) (hcap : 0 < capacity x.size desc)
    {ys : List ChainMember} (hys : Objects members ys) (hlen : ys.length = maxObj)
    (hapart : (x :: ys).Pairwise Apart) (hback : ∀ y ∈ ys, Apart y x) : False := by
  have hunits := h.units hfits
  have hopened : ∀ y ∈ ys, ∃ desc, Opened y desc := by
    intro y hy
    obtain ⟨dy, hname⟩ := hys y hy
    exact ⟨dy, hname.desc, hunits _ _ _ hname⟩
  obtain ⟨info, info', hafter, hnext⟩ :=
    displaced ⟨hx.desc, hunits _ _ _ hx⟩ hopened hlen hapart hback
  have hobjects : Objects members ((x :: ys) ++ [x]) := by
    intro m hm
    rcases List.mem_append.mp hm with hm | hm
    · rcases List.mem_cons.mp hm with rfl | hm
      · exact ⟨desc, hx⟩
      · exact hys m hm
    · rw [List.mem_singleton.mp hm]
      exact ⟨desc, hx⟩
  obtain ⟨info₁, count, info₂, count', offset, hinfo, hcount, htable, hcounted⟩ :=
    h.same_slot hfits hobjects
  cases hafter.symm.trans hinfo
  have hunit := unit_pos hfits hx (hunits _ _ _ hx)
  have hmany : 1 ≤ count x.name := by
    rw [after, countSlots_next hx] at hcount
    have hle := after_count hcount x.name
    rwa [Function.update_self] at hle
  have hzero : offset = some 0 := by
    rw [hnext] at htable
    cases htable
    have hroom : (0 : Int) < x.size.tdiv (unitSize desc) := by
      rwa [capacity_tdiv hfits hx]
    have hfirst : slotOf (newObj x desc) = some ((0 : Nat) * unitSize desc) := if_pos hroom
    rw [hfirst, Int.natCast_zero, Int.zero_mul]
  rw [countSlots_next hx, hzero] at hcounted
  have hslot := congrArg Prod.snd (Option.some.inj (Option.some.inj hcounted))
  dsimp only at hslot
  split at hslot
  · have hpos : 0 < (count x.name : Int) * unitSize desc :=
      Int.mul_pos (by omega) hunit
    have heq := Option.some.inj hslot
    omega
  · cases hslot

/-- Names with 32 characters are not found again. -/
theorem Followed.short (h : Followed T n base members) (hfits : Consistent members room)
    {x : ChainMember} (hx : Names members x.name x desc) (hcap : 0 < capacity x.size desc) :
    ∀ name ∈ objectNames members, name.length < 32 := by
  intro name hname
  obtain ⟨y, dy, hy⟩ := mem_objectNames.mp hname
  obtain ⟨rfl, -⟩ := names_self hy
  by_contra hlong
  have hunits := h.units hfits
  have hmax := (names_writable hy hfits).length
  have htake : y.name.take 32 = y.name := List.take_of_length_le hmax
  have hlen : (y.name.take 31).length = 31 := by
    rw [List.length_take]
    omega
  have hyapart : ∀ a : ChainMember, Apart a y := by
    intro a heq
    have hlens := congrArg List.length heq
    rw [htake, List.length_take] at hlens
    omega
  by_cases hsame : x.name.take 32 = y.name.take 31
  · -- the object takes the entry that the long name has left in the table
    have hxlen := (names_writable hx hfits).length
    have hxname : x.name = y.name.take 31 := by
      rwa [List.take_of_length_le hxlen] at hsame
    have hne : x.name ≠ y.name := by
      intro heq
      have hlens := congrArg List.length (heq.symm.trans hxname)
      omega
    have hobjects : Objects members ([y] ++ [x]) := by
      intro m hm
      rcases List.mem_cons.mp hm with rfl | hm
      · exact ⟨dy, hy⟩
      · rw [List.mem_singleton.mp hm]
        exact ⟨desc, hx⟩
    obtain ⟨info, count, info', count', offset, hinfo, hcount, htable, hcounted⟩ :=
      h.same_slot hfits hobjects
    have hyunit := unit_pos hfits hy (hunits _ _ _ hy)
    have hnew : ¬ indexOf [] y < ([] : List ChainObj).length := Nat.not_lt_zero _
    have hyinfo : tableSlots.next [] y = _ :=
      tableSlots_next (getObjectInfo_new hy.desc (hunits _ _ _ hy) hnew (by decide))
        (by simp)
    rw [show tableSlots.start = ([] : List ChainObj) from rfl, after, hyinfo] at hinfo
    cases hinfo
    have hone : counted ([] ++ [newObj y dy]) ([] : List ChainObj).length =
        [{ newObj y dy with curNum := 1 }] := rfl
    rw [hone] at htable
    have hfound : indexOf [{ newObj y dy with curNum := 1 }] x <
        [{ newObj y dy with curNum := 1 }].length := by
      rw [indexOf_lt_iff, List.map_singleton, List.mem_singleton]
      exact hsame
    have hxinfo := tableSlots_next (getObjectInfo_found hx.desc hfound) hfound
    rw [List.getElem_singleton, htable] at hxinfo
    have hoffset : offset = slotOf { newObj y dy with curNum := 1 } :=
      congrArg Prod.snd (Option.some.inj (Option.some.inj hxinfo))
    rw [show countSlots.start = (fun _ => 0 : Bytes → Nat) from rfl, after,
      countSlots_next hy] at hcount
    cases hcount
    have hroom : ((0 : Nat) : Int) < capacity x.size desc := hcap
    rw [countSlots_next hx, Function.update_of_ne hne, if_pos hroom, hoffset] at hcounted
    have hslot : slotOf { newObj y dy with curNum := 1 } = some ((0 : Nat) * unitSize desc) :=
      (congrArg Prod.snd (Option.some.inj (Option.some.inj hcounted))).symm
    rw [slotOf, Int.natCast_zero, Int.zero_mul] at hslot
    split at hslot
    · have heq : ((1 : Nat) : Int) * unitSize dy = 0 := Option.some.inj hslot
      omega
    · cases hslot
  · have hobjects : Objects members (List.replicate maxObj y) := by
      intro m hm
      rw [(List.mem_replicate.mp hm).2]
      exact ⟨dy, hy⟩
    refine h.not_displaced hfits hx hcap hobjects List.length_replicate ?_ ?_
    · refine List.pairwise_cons.mpr ⟨fun m hm => ?_, ?_⟩
      · rw [(List.mem_replicate.mp hm).2]
        exact hyapart x
      · exact List.pairwise_replicate.mpr (Or.inr (hyapart y))
    · intro m hm
      rw [(List.mem_replicate.mp hm).2]
      exact hsame

theorem objects_named {names : List Bytes} (h : ∀ name ∈ names, name ∈ objectNames members) :
    ∃ ms, ms.map ChainMember.name = names ∧ Objects members ms := by
  induction names with
  | nil => exact ⟨[], rfl, fun _ hm => absurd hm List.not_mem_nil⟩
  | cons name names ih =>
    obtain ⟨hname, hnames⟩ := List.forall_mem_cons.mp h
    obtain ⟨ms, hms, hobjects⟩ := ih hnames
    obtain ⟨m, desc, hm⟩ := mem_objectNames.mp hname
    obtain ⟨hself, hm⟩ := names_self hm
    exact ⟨m :: ms, by rw [List.map_cons, hself, hms],
      List.forall_mem_cons.mpr ⟨⟨desc, hm⟩, hobjects⟩⟩

/-- A ninth object takes the place of the first. -/
theorem Followed.few (h : Followed T n base members) (hfits : Consistent members room)
    {x : ChainMember} (hx : Names members x.name x desc) (hcap : 0 < capacity x.size desc) :
    (objectNames members).length ≤ maxObj := by
  by_contra hmany
  have hshort := h.short hfits hx hcap
  have hmem : x.name ∈ objectNames members := mem_objectNames.mpr ⟨x, desc, hx⟩
  have hnodup : (objectNames members).Nodup := List.nodup_dedup _
  have hlen := List.length_erase_of_mem hmem
  have hsub : ∀ name ∈ ((objectNames members).erase x.name).take maxObj,
      name ∈ objectNames members := fun name hname =>
    List.erase_subset (List.mem_of_mem_take hname)
  obtain ⟨ys, hys, hobjects⟩ := objects_named hsub
  have hyslen : ys.length = maxObj := by
    have hlens := congrArg List.length hys
    rw [List.length_map, List.length_take] at hlens
    omega
  have hall : ((x :: ys).map ChainMember.name).Nodup := by
    rw [List.map_cons, hys, List.nodup_cons]
    refine ⟨fun hin => ?_, (hnodup.erase _).sublist (List.take_sublist _ _)⟩
    exact (hnodup.not_mem_erase) (List.mem_of_mem_take hin)
  have hlt : ∀ m ∈ x :: ys, m.name.length < 32 := by
    intro m hm
    rcases List.mem_cons.mp hm with rfl | hm
    · exact hshort _ hmem
    · exact hshort _ (hsub m.name (hys ▸ List.mem_map_of_mem hm))
  have hapart : ∀ a ∈ x :: ys, ∀ b ∈ x :: ys, a.name ≠ b.name → Apart a b := by
    intro a ha b hb hne heq
    have hla := hlt a ha
    have hlb := hlt b hb
    rw [List.take_of_length_le (by omega), List.take_of_length_le (by omega)] at heq
    exact hne heq.symm
  rw [List.Nodup, List.pairwise_map] at hall
  refine h.not_displaced hfits hx hcap hobjects hyslen
    (hall.imp_of_mem fun ha hb hne => hapart _ ha _ hb hne) fun y hy => ?_
  refine hapart y (List.mem_cons_of_mem _ hy) x List.mem_cons_self ?_
  exact ((List.pairwise_cons.mp hall).1 y hy).symm

theorem valueLine_kind {t : Bytes} (h : isValueLine t = true) :
    isChainEnd t = false ∧ isChainLine t = false ∧ t ≠ [] := by
  obtain ⟨r, rfl⟩ := List.isPrefixOf_iff_prefix.mp h
  exact ⟨rfl, rfl, List.cons_ne_nil _ _⟩

/-- A file of one line. -/
theorem openFile_line {raw : Bytes} (hraw : FileLine raw) (hends : endsLine raw = true)
    (hne : trimWhiteSpace (cstr raw) ≠ []) :
    (openFile raw).lines.length = 1 ∧
      ∃ s, getLine (openFile raw) = (some (trimWhiteSpace (cstr raw)), s) := by
  obtain ⟨hnl, hlen⟩ := hraw
  have hmem : newline ∈ raw := by
    rw [endsLine, beq_iff_eq] at hends
    exact (cstr_isPrefix raw).subset (List.mem_of_getLast? hends)
  have hrawne : raw ≠ [] := List.ne_nil_of_mem hmem
  have hsplit : raw.dropLast ++ [newline] = raw := by
    have hback := List.dropLast_append_getLast hrawne
    rw [← hback, List.mem_append, List.mem_singleton] at hmem
    rcases hmem with hmem | hmem
    · exact absurd hmem hnl
    · rw [hmem]
      exact hback
  have hlines : (openFile raw).lines = [raw] := by
    have hline : fgetsLines (maxMibValStrLen - 1) [] (raw.dropLast ++ newline :: []) =
        ([] ++ raw.dropLast ++ [newline]) :: fgetsLines (maxMibValStrLen - 1) [] [] :=
      fgetsLines_line hnl [] (by
        rw [List.nil_append, List.length_dropLast]
        rw [maxMibValStrLen] at hlen ⊢
        omega) []
    rw [hsplit, List.nil_append, hsplit] at hline
    exact hline
  refine ⟨by rw [hlines, List.length_singleton], ?_⟩
  rw [getLine, hlines, getLineOf, if_pos hends]
  dsimp only
  rw [if_neg hne]
  exact ⟨_, rfl⟩

theorem Followed.texts (h : Followed T n base members) {raw : Bytes} (hraw : FileLine raw)
    (hends : endsLine raw = true) (hvalue : isValueLine (trimWhiteSpace (cstr raw)) = true) :
    ∀ m ∈ valueMember members (trimWhiteSpace (cstr raw)),
    ∀ string ∈ valueText (trimWhiteSpace (cstr raw)),
      stringToMibFails T string m.type = false →
      (stringToMib T string m.type m.size.toNat).isSome = true := by
  intro m hm string hstring hfails
  obtain ⟨hend, hchain, hne⟩ := valueLine_kind hvalue
  obtain ⟨hcount, s, hline⟩ := openFile_line hraw hends hne
  obtain ⟨places, htable, -⟩ := h raw (Block.zeros n)
  rw [Option.isSome_iff_ne_none]
  intro hnone
  obtain ⟨⟨pname, rest⟩, hname, hmember⟩ := Option.bind_eq_some_iff.mp hm
  rw [valueText, hname, Option.bind_some] at hstring
  have hput : putValue T base (some members) (trimWhiteSpace (cstr raw))
      { entry := Block.zeros n, info := [], emptyChain := true } = none := by
    rw [putValue, hname]
    dsimp only
    rw [show members.find? (fun m => m.name == pname) = some m from hmember]
    dsimp only
    rw [show quotedValue rest = some string from hstring]
    dsimp only
    rw [hfails, if_neg Bool.false_ne_true, hnone]
    split
    · rfl
    · rfl
  rw [hcount, placeBlocks, show (openFile raw).eof = false from rfl, if_neg Bool.false_ne_true,
    hline] at htable
  dsimp only at htable
  rw [hend, if_neg Bool.false_ne_true, hchain, if_neg Bool.false_ne_true, hvalue, if_pos rfl,
    hput] at htable
  cases htable

/-- The places in a block that stays open are those of its own file. -/
theorem placeBlocks_inner (hname : Names members name m desc) (hfits : Consistent members room)
    {fuel : Nat} {s : Bytes} {count count' : σ} {entry : Block n} {b : Bool} {offset : Int}
    (hnext : S.next count m = some (some (count', some offset))) {places : List Place}
    (h : (placeBlocks S T (fuel + 1) (openFile (openLine name ++ newline :: s)) base
      (some members) count entry b).map (·.1) = some places) :
    ∃ inner rest, places = .slot (base + m.offset + offset) inner :: rest ∧
      (placeBlocks S T fuel (openFile s) (base + m.offset + offset) (some desc) S.start entry
        true).map (·.1) = some inner := by
  rw [placeBlocks_slot hname hfits _ _ _ _ _ hnext, hname.desc] at h
  rcases hrun : placeBlocks S T fuel (openFile s) (base + m.offset + offset) (some desc) S.start
    entry true with _ | ⟨inner, _ | b', entry', s'⟩
  · rw [hrun] at h
    cases h
  · rw [hrun] at h
    cases h
    exact ⟨inner, [], rfl, rfl⟩
  · rw [hrun, Option.bind_some, if_neg (Option.some_ne_none b'), Option.map_map] at h
    obtain ⟨res, -, rfl⟩ := Option.map_eq_some_iff.mp h
    exact ⟨inner, res.1, rfl, rfl⟩

/-- What follows of a level follows of the levels in its objects. -/
theorem Followed.object (h : Followed T n base members) (hfits : Consistent members room)
    (hname : Names members name m desc) (hcap : 0 < capacity m.size desc) :
    Followed T n (base + m.offset + (0 : Nat) * unitSize desc) desc := by
  intro content entry
  have hunit := h.units hfits name m desc hname
  have hwritable := names_writable hname hfits
  obtain ⟨places, htable, hcount⟩ := h (openLine name ++ newline :: content) entry
  have hroom : ((0 : Nat) : Int) < m.size.tdiv (unitSize desc) := by
    rw [capacity_tdiv hfits hname]
    exact hcap
  have hnew : tableSlots.next tableSlots.start m = some (some
      (counted ([] ++ [newObj m desc]) ([] : List ChainObj).length,
        some ((0 : Nat) * unitSize desc))) := by
    have hempty : ¬ indexOf [] m < ([] : List ChainObj).length := Nat.not_lt_zero _
    have hnext := tableSlots_next (getObjectInfo_new hname.desc hunit hempty (by decide)) (by simp)
    rw [List.getElem_concat_length rfl, slotOf] at hnext
    exact hnext.trans (congrArg (fun o => some (some (_, o))) (if_pos hroom))
  have hfirst := countSlots_next hname countSlots.start
  have hroom' : ((countSlots.start name : Nat) : Int) < capacity m.size desc := hcap
  rw [if_pos hroom'] at hfirst
  rw [(getLine_open hwritable content).2.2] at htable hcount
  obtain ⟨inner, rest, hplaces, hinner⟩ := placeBlocks_inner hname hfits hnew htable
  obtain ⟨inner', rest', hplaces', hinner'⟩ := placeBlocks_inner hname hfits hfirst hcount
  have hsame := (List.cons.inj (hplaces.symm.trans hplaces')).1
  rw [Place.slot.injEq] at hsame
  exact ⟨inner, hinner, hsame.2 ▸ hinner'⟩

theorem Followed.orderly (h : Followed T n base members) (hfits : Consistent members room) :
    Orderly T members := by
  refine ⟨h.units hfits, fun raw hraw hends hvalue => h.texts hraw hends hvalue, ?_⟩
  rintro ⟨name, x, desc, hx, hcap⟩
  obtain ⟨-, hx⟩ := names_self hx
  exact ⟨h.few hfits hx hcap, h.short hfits hx hcap⟩

theorem Followed.reached {root : List ChainMember} (h : Followed T n base root)
    (hfits : Consistent root room) (hreach : Reaches root members) :
    ∃ base room, Followed T n base members ∧ Consistent members room := by
  induction hreach with
  | root => exact ⟨base, room, h, hfits⟩
  | object _ hname hcap ih =>
    obtain ⟨base', room', hlevel, hfits'⟩ := ih
    obtain ⟨-, hdesc⟩ := (hfits'.mem (memberNamed_mem hname.member).1).object hname.desc
    exact ⟨_, _, hlevel.object hfits' hname hcap, hdesc⟩

/-- `put_value_object` reads the rest of any file behind a chain line: it comes to an end, writes
inside the record, and does what the exact counters say, which put the blocks of an object into
its slots one after the other and ignore those that have no slot. -/
def PutsInOrder (T : Tables) (n : Nat) (desc : List ChainMember) : Prop :=
  ∀ (content : Bytes) (entry : Block n), ∃ places res,
    putValueObject T ((openFile content).lines.length + 1) (openFile content) 0 (some desc)
      { entry, info := [], emptyChain := true } = some res ∧
    placeBlocks tableSlots T ((openFile content).lines.length + 1) (openFile content) 0
      (some desc) tableSlots.start entry true = some (places, res) ∧
    placeBlocks countSlots T ((openFile content).lines.length + 1) (openFile content) 0
      (some desc) countSlots.start entry true = some (places, res)

/-- Only the last byte of a line ends it, and the line has its room. -/
theorem fgetsLines_bounded {room : Nat} {line : Bytes} (hnl : newline ∉ line)
    (hline : line.length < room) (s : Bytes) :
    ∀ l ∈ fgetsLines room line s, newline ∉ l.dropLast ∧ l.length ≤ room := by
  induction s generalizing line with
  | nil =>
    intro l hl
    rw [fgetsLines] at hl
    split at hl
    · cases hl
    · rw [List.mem_singleton.mp hl]
      exact ⟨fun hmem => hnl (List.dropLast_subset _ hmem), Nat.le_of_lt hline⟩
  | cons c s ih =>
    have hlen : (line ++ [c]).length = line.length + 1 := by simp
    have hpos : ([] : Bytes).length < room := Nat.lt_of_le_of_lt (Nat.zero_le _) hline
    rw [fgetsLines]
    split
    · refine List.forall_mem_cons.mpr ⟨⟨?_, by omega⟩, ih List.not_mem_nil hpos⟩
      rw [List.dropLast_concat]
      exact hnl
    · rename_i hmore
      rw [not_or] at hmore
      refine ih ?_ (by omega)
      rw [List.mem_append, List.mem_singleton, not_or]
      exact ⟨hnl, Ne.symm hmore.1⟩

theorem openFile_fileLine (content : Bytes) : ∀ raw ∈ (openFile content).lines, FileLine raw := by
  intro raw hraw
  obtain ⟨hnl, hlen⟩ := fgetsLines_bounded List.not_mem_nil
    (show ([] : Bytes).length < maxMibValStrLen - 1 by decide) content raw hraw
  refine ⟨hnl, ?_⟩
  rw [maxMibValStrLen] at hlen ⊢
  omega

/-- A tree is read in order exactly when the levels that a file can open are in order. -/
theorem puts_in_order_iff {desc : List ChainMember} (hfits : Consistent desc n) :
    PutsInOrder T n desc ↔ ∀ members, Reaches desc members → Orderly T members := by
  constructor
  · intro h members hreach
    have hfollowed : Followed T n 0 desc := by
      intro content entry
      obtain ⟨places, res, -, htable, hcount⟩ := h content entry
      exact ⟨places, by rw [htable]; rfl, by rw [hcount]; rfl⟩
    obtain ⟨base, room, hlevel, hfits'⟩ := hfollowed.reached hfits hreach
    exact hlevel.orderly hfits'
  · intro h content entry
    obtain ⟨R, hagrees⟩ := (h desc .root).agrees hfits
    obtain ⟨⟨places, res⟩, htable, hcount, -⟩ := places_agree h
      ((openFile content).lines.length + 1) (s := openFile content) entry true .root hfits
      (Int.le_refl 0) (by omega) (openFile_fileLine content) (Nat.lt_succ_self _) hagrees
      hagrees.start
    refine ⟨places, res, ?_, htable, hcount⟩
    have hput := placeBlocks_table (T := T) ((openFile content).lines.length + 1)
      (openFile content) 0 (some desc) { entry, info := [], emptyChain := true }
    rw [← hput]
    exact congrArg (Option.map (·.2)) htable

/-- A unit of one byte. -/
def byteUnit : List ChainMember := [.mk (ascii "Value") .byte 0 1 none]

/-- One object with two units. -/
def pairDesc : List ChainMember := [.mk (ascii "Port") .object 0 2 (some byteUnit)]

theorem byteUnit_consistent : Consistent byteUnit (unitSize byteUnit) := by
  simp only [byteUnit, Consistent, MemberConsistent, TypeT.width]
  decide

theorem consistent_of_mem (h : ∀ m ∈ members, MemberConsistent m room) :
    Consistent members room := by
  induction members with
  | nil =>
    rw [Consistent]
    trivial
  | cons m members ih =>
    obtain ⟨hm, hmembers⟩ := List.forall_mem_cons.mp h
    rw [Consistent]
    exact ⟨hm, ih hmembers⟩

theorem pairDesc_consistent : Consistent pairDesc (2 : Nat) := by
  refine consistent_of_mem fun m hm => ?_
  rw [List.mem_singleton.mp hm, MemberConsistent]
  exact ⟨by decide, by decide, by decide, byteUnit_consistent⟩

theorem pairDesc_names (h : Names pairDesc name m desc) :
    name = ascii "Port" ∧ m = .mk (ascii "Port") .object 0 2 (some byteUnit) ∧
      desc = byteUnit := by
  obtain ⟨hmem, hself⟩ := memberNamed_mem h.member
  have hm := List.mem_singleton.mp hmem
  have hdesc := h.desc
  subst hm
  cases hdesc
  exact ⟨hself.symm, rfl, rfl⟩

theorem byteUnit_names (h : Names byteUnit name m desc) : False := by
  obtain ⟨hmem, -⟩ := memberNamed_mem h.member
  have hm := List.mem_singleton.mp hmem
  have hdesc := h.desc
  subst hm
  cases hdesc

/-- Only the texts of integer arrays can be too long. -/
theorem text_taken {type : TypeT} (h : type ≠ .intArray) (string : Bytes) (size : Nat) :
    (stringToMib T string type size).isSome = true := by
  cases type with
  | intArray => exact absurd rfl h
  | _ => rfl

theorem pairDesc_reaches (h : Reaches pairDesc members) :
    members = pairDesc ∨ members = byteUnit := by
  induction h with
  | root => exact Or.inl rfl
  | object _ hname _ ih =>
    rcases ih with rfl | rfl
    · exact Or.inr (pairDesc_names hname).2.2
    · exact (byteUnit_names hname).elim

/-- The two units of the object are filled in order by every file. -/
theorem pair_in_order : PutsInOrder sampleTables 2 pairDesc := by
  apply (puts_in_order_iff pairDesc_consistent).mpr
  intro members hreach
  rcases pairDesc_reaches hreach with rfl | rfl
  · refine ⟨fun name m desc hname => ?_, fun raw _ _ _ m hm string _ _ => ?_, fun _ => by decide⟩
    · rw [(pairDesc_names hname).2.2]
      decide
    · obtain ⟨pname, -, hm⟩ := Option.bind_eq_some_iff.mp hm
      rw [List.mem_singleton.mp (memberNamed_mem hm).1]
      exact text_taken (by decide) _ _
  · refine ⟨fun name m desc hname => (byteUnit_names hname).elim,
      fun raw _ _ _ m hm string _ _ => ?_,
      fun ⟨_, _, _, hname, _⟩ => (byteUnit_names hname).elim⟩
    obtain ⟨pname, -, hm⟩ := Option.bind_eq_some_iff.mp hm
    rw [List.mem_singleton.mp (memberNamed_mem hm).1]
    exact text_taken (by decide) _ _

/-- Nine objects with one unit each. -/
def nineDesc : List ChainMember :=
  (List.range 9).map fun k => .mk [UInt8.ofNat (65 + k)] .object k 1 (some byteUnit)

def valueBlock (name value : Bytes) : Bytes :=
  openLine name ++ newline :: (ascii "<Value Name=\"Value\" Value=\"" ++ value ++ ascii "\"/>\n" ++
    closeLine ++ [newline])

/-- The first object twice, with the others between. -/
def nineFile : Bytes :=
  ((List.range 9).map fun k => valueBlock [UInt8.ofNat (65 + k)] (ascii "1")).flatten ++
    valueBlock (ascii "A") (ascii "2")

theorem nineDesc_consistent : Consistent nineDesc (9 : Nat) := by
  refine consistent_of_mem fun m hm => ?_
  obtain ⟨k, hk, rfl⟩ := List.mem_map.mp hm
  have hlt := List.mem_range.mp hk
  have hnul : ∀ k : Fin 9, (0 : UInt8) ∉ [UInt8.ofNat (65 + k)] := by decide
  rw [MemberConsistent]
  have hlen : [UInt8.ofNat (65 + k)].length ≤ 32 := Nat.succ_le_succ (Nat.zero_le 31)
  have hwidth : max 1 ((TypeT.object.width (1 : Int).toNat : Nat) : Int) = 1 := rfl
  refine ⟨⟨List.cons_ne_nil _ _, hnul ⟨k, hlt⟩, hlen⟩, ?_, by decide, byteUnit_consistent⟩
  rw [hwidth]
  omega

/-- The second block of the first object has no slot, but it is put into the first one. -/
theorem ninth_object_displaces :
    Consistent nineDesc (9 : Nat) ∧
      (putValueObject sampleTables ((openFile nineFile).lines.length + 1) (openFile nineFile) 0
        (some nineDesc) { entry := Block.zeros 9, info := [], emptyChain := true }).map
          (·.2.1.1) = some [2, 1, 1, 1, 1, 1, 1, 1, 1] ∧
      ¬ PutsInOrder sampleTables 9 nineDesc := by
  have hput : (putValueObject sampleTables ((openFile nineFile).lines.length + 1)
      (openFile nineFile) 0 (some nineDesc)
      { entry := Block.zeros 9, info := [], emptyChain := true }).map
        (·.2.1.1) = some [2, 1, 1, 1, 1, 1, 1, 1, 1] := by
    decide +kernel
  have hcounted : (placeBlocks countSlots sampleTables ((openFile nineFile).lines.length + 1)
      (openFile nineFile) 0 (some nineDesc) countSlots.start (Block.zeros 9) true).map
        (·.2.2.1.1) = some [1, 1, 1, 1, 1, 1, 1, 1, 1] := by
    decide +kernel
  refine ⟨nineDesc_consistent, hput, fun h => ?_⟩
  obtain ⟨places, res, hres, -, hcount⟩ := h nineFile (Block.zeros 9)
  rw [hres] at hput
  rw [hcount] at hcounted
  have hsame := hput.symm.trans hcounted
  cases hsame

end XmlSlotOrder
