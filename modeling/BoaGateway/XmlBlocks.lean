import Mathlib.Data.List.GetD
import BoaGateway.XmlGrammar
import BoaGateway.XmlLoad

/-!
# How far the loader reads a block

The loader leaves a block at its own end, with the blocks inside it closed, or it has run to
the end of the file. A closed block is taken if the members that its nested blocks name are
objects and its chain has a descriptor.
-/

namespace XmlBlocks

open ByteBlocks Texts MibTypes MibValue XmlLines XmlLoad XmlGrammar

variable {T : Tables}

/-- A text that a value of the type can have. -/
def ValidText (T : Tables) (string : Bytes) (type : TypeT) (size : Nat) : Prop :=
  stringToMibFails T string type = false ∧ (stringToMib T string type size).isSome = true ∧
    (type.isString = true → strlen string < size)

instance (T : Tables) (string : Bytes) (type : TypeT) (size : Nat) :
    Decidable (ValidText T string type size) :=
  inferInstanceAs (Decidable (_ ∧ _ ∧ (_ → _)))

def memberNamed (members : List ChainMember) (pname : Bytes) : Option ChainMember :=
  members.find? fun m => m.name == pname

/-- The member that a value line names. -/
def valueMember (members : List ChainMember) (line : Bytes) : Option ChainMember :=
  (quotedName line).bind fun name => memberNamed members name.1

/-- The member that the first line of a nested block names. -/
def objectMember (members : List ChainMember) (line : Bytes) : Option ChainMember :=
  (quotedToken line).bind fun name => memberNamed members name.1

def valueText (line : Bytes) : Option Bytes := (quotedName line).bind fun name => quotedValue name.2

/-- The counter of an object after one more of its blocks. -/
def counted (info : List ChainObj) (k : Nat) : List ChainObj :=
  let obj := info.getD k ⟨[], 0, 0, 0⟩
  info.set k { obj with curNum := obj.curNum + 1 }

/-- The next block of the object has room. -/
def hasRoom (info : List ChainObj) (k : Nat) : Prop :=
  let obj := info.getD k ⟨[], 0, 0, 0⟩
  (obj.curNum : Int) < obj.objMaxNum

instance (info : List ChainObj) (k : Nat) : Decidable (hasRoom info k) :=
  inferInstanceAs (Decidable (_ < _))

end XmlBlocks

namespace XmlGrammar.Body

open ByteBlocks MibTypes XmlLines XmlLoad XmlBlocks

/-- Every value of a member has a text that its type can have. -/
def MembersValid (T : Tables) : Body → List ChainMember → Prop
  | done, _ => True
  | value line rest, members =>
    (∀ m ∈ valueMember members line, ∀ string ∈ valueText line,
      ValidText T string m.type m.size.toNat) ∧ rest.MembersValid T members
  | chain line block _ rest, members =>
    (∀ m ∈ objectMember members line, ∀ desc ∈ m.recordDesc, block.MembersValid T desc) ∧
      rest.MembersValid T members

/-- The block is taken: a block with lines has a descriptor, and nested blocks that name members
name objects. Blocks of unknown members and blocks that have no room are skipped. -/
def Taken : Body → Option (List ChainMember) → List ChainObj → Prop
  | done, _, _ => True
  | value _ rest, desc, info => desc.isSome = true ∧ rest.Taken desc info
  | chain line block _ rest, desc, info =>
    ∃ members, desc = some members ∧
      match objectMember members line with
      | none => rest.Taken desc info
      | some m => ∃ info' k, getObjectInfo info m = some (some (info', k)) ∧
          (hasRoom info' k → block.Taken m.recordDesc []) ∧ rest.Taken desc (counted info' k)

/-- No line names a member and no block is nested. -/
def blank : Body → List ChainMember → Bool
  | done, _ => true
  | value line rest, members => (valueMember members line).isNone && rest.blank members
  | chain _ _ _ _, _ => false

end XmlGrammar.Body

namespace XmlBlocks

open ByteBlocks Texts MibTypes MibValue XmlLines XmlLoad XmlGrammar

variable {T : Tables}

theorem Listing.cases {t : Bytes} {ts : List Bytes} (h : Listing (t :: ts)) :
    (lineKind t = .trailer ∧ ts = []) ∨
      ((lineKind t = .value ∨ lineKind t = .chain ∨ lineKind t = .chainEnd) ∧ Listing ts) := by
  obtain ⟨pre, trailer, heq, htrailer, hpre⟩ := h
  cases pre with
  | nil =>
    cases heq
    exact Or.inl ⟨htrailer, rfl⟩
  | cons p pre =>
    obtain ⟨hp, hrest⟩ := List.forall_mem_cons.mp hpre
    cases heq
    exact Or.inr ⟨hp, pre, trailer, rfl, htrailer, hrest⟩

/-- The stream has come to its end, or it stands behind a closed block with a property. -/
def Closes (P : Body → Prop) (ts : List Bytes) (s : Stream) : Prop :=
  s = spent ∨ ∃ body close ts', body.Formed ∧ lineKind close = .chainEnd ∧
    ts = body.lines ++ close :: ts' ∧ Holds s ts' ∧ Listing ts' ∧ P body

theorem Closes.done {P : Body → Prop} {t : Bytes} {ts : List Bytes} {s : Stream}
    (ht : lineKind t = .chainEnd) (hs : Holds s ts) (hlisting : Listing ts) (hP : P .done) :
    Closes P (t :: ts) s :=
  Or.inr ⟨.done, t, ts, trivial, ht, rfl, hs, hlisting, hP⟩

theorem Closes.value {P Q : Body → Prop} {t : Bytes} {ts : List Bytes} {s : Stream}
    (ht : lineKind t = .value) (h : Closes P ts s) (hPQ : ∀ body, P body → Q (.value t body)) :
    Closes Q (t :: ts) s := by
  rcases h with h | ⟨body, close, ts', hbody, hclose, rfl, hs, hlisting, hP⟩
  · exact Or.inl h
  · exact Or.inr ⟨.value t body, close, ts', ⟨ht, hbody⟩, hclose, rfl, hs, hlisting, hPQ body hP⟩

theorem Closes.chain {P Q : Body → Prop} {t close : Bytes} {block : Body} {ts : List Bytes}
    {s : Stream} (ht : lineKind t = .chain) (hblock : block.Formed)
    (hclose : lineKind close = .chainEnd) (h : Closes P ts s)
    (hPQ : ∀ body, P body → Q (.chain t block close body)) :
    Closes Q (t :: (block.lines ++ close :: ts)) s := by
  rcases h with h | ⟨body, close', ts', hbody, hclose', rfl, hs, hlisting, hP⟩
  · exact Or.inl h
  · refine Or.inr ⟨.chain t block close body, close', ts', ⟨ht, hblock, hclose, hbody⟩, hclose',
      ?_, hs, hlisting, hPQ body hP⟩
    simp [Body.lines]

theorem skip_spent {fuel : Nat} {b : Bool} {s : Stream}
    (h : skipValueObject fuel spent = some (b, s)) : s = spent := by
  cases fuel with
  | zero => cases h
  | succ fuel =>
    cases h
    rfl

theorem skip_nil {fuel : Nat} {b : Bool} {s s' : Stream} (hs : Holds s [])
    (h : skipValueObject fuel s = some (b, s')) : s' = spent := by
  cases fuel with
  | zero => cases h
  | succ fuel =>
    rw [skipValueObject, hs.eof, hs.getLine_nil] at h
    cases h
    rfl

/-- Skipping ends behind the block or at the end of the file. -/
theorem skip_closes {fuel : Nat} {b : Bool} {s s' : Stream} {ts : List Bytes} (hs : Holds s ts)
    (hlisting : Listing ts) (h : skipValueObject fuel s = some (b, s')) :
    Closes (fun _ => True) ts s' := by
  induction fuel generalizing s s' ts b with
  | zero => cases h
  | succ fuel ih =>
    cases ts with
    | nil => exact Or.inl (skip_nil hs h)
    | cons t ts =>
    obtain ⟨s₁, hline, hs₁, -⟩ := hs.getLine_cons
    rw [skipValueObject, hs.eof, hline, if_neg Bool.false_ne_true] at h
    dsimp only at h
    rcases Listing.cases hlisting with ⟨htrailer, rfl⟩ | ⟨hkind, hrest⟩
    · obtain ⟨-, hend, hchain, -⟩ := lineKind_trailer htrailer
      rw [hend, if_neg Bool.false_ne_true, hchain, if_neg (by simp)] at h
      exact Or.inl (skip_nil hs₁ h)
    rcases hkind with hkind | hkind | hkind
    · obtain ⟨-, hend, hchain, -⟩ := lineKind_value hkind
      rw [hend, if_neg Bool.false_ne_true, hchain, if_neg (by simp)] at h
      exact (ih hs₁ hrest h).value hkind fun _ _ => trivial
    · obtain ⟨hchain, hend, -, -, name, tail, htoken⟩ := lineKind_chain hkind
      rw [hend, if_neg Bool.false_ne_true, hchain, htoken, if_pos ⟨rfl, rfl⟩] at h
      cases hnested : skipValueObject fuel s₁ with
      | none =>
        rw [hnested] at h
        cases h
      | some res =>
      rw [hnested] at h
      rcases ih hs₁ hrest hnested with
        hspent | ⟨block, close, ts', hblock, hclose, rfl, hs₂, hts', -⟩
      · dsimp only at h
        rw [hspent] at h
        exact Or.inl (skip_spent h)
      · exact Closes.chain hkind hblock hclose (ih hs₂ hts' h) fun _ _ => trivial
    · have hend := lineKind_chainEnd hkind
      rw [hend, if_pos rfl] at h
      cases h
      exact Closes.done hkind hs₁ hrest trivial

/-- A closed block is skipped. -/
theorem skip_body {body : Body} (hbody : body.Formed) {close : Bytes}
    (hclose : lineKind close = .chainEnd) {fuel : Nat} {s : Stream} {ts : List Bytes}
    (hs : Holds s (body.lines ++ close :: ts)) (hfuel : s.lines.length < fuel) :
    ∃ s', skipValueObject fuel s = some (false, s') ∧ Holds s' ts ∧
      s'.lines.length < s.lines.length := by
  induction body generalizing close fuel s ts with
  | done =>
    obtain ⟨fuel, rfl⟩ := Nat.exists_eq_add_one_of_ne_zero (Nat.ne_zero_of_lt hfuel)
    obtain ⟨s₁, hline, hs₁, hlen⟩ := hs.getLine_cons
    refine ⟨s₁, ?_, hs₁, hlen⟩
    rw [skipValueObject, hs.eof, hline, if_neg Bool.false_ne_true]
    dsimp only
    rw [lineKind_chainEnd hclose, if_pos rfl]
  | value line rest ih =>
    obtain ⟨fuel, rfl⟩ := Nat.exists_eq_add_one_of_ne_zero (Nat.ne_zero_of_lt hfuel)
    obtain ⟨s₁, hline, hs₁, hlen⟩ := hs.getLine_cons
    have hfuel₁ : s₁.lines.length < fuel := by omega
    obtain ⟨-, hend, hchain, -⟩ := lineKind_value hbody.1
    obtain ⟨s₂, hskip, hs₂, hlen₂⟩ := ih hbody.2 hclose hs₁ hfuel₁
    refine ⟨s₂, ?_, hs₂, hlen₂.trans hlen⟩
    rw [skipValueObject, hs.eof, hline, if_neg Bool.false_ne_true]
    dsimp only
    rw [hend, if_neg Bool.false_ne_true, hchain, if_neg (by simp), hskip]
  | chain line block close' rest ihBlock ihRest =>
    obtain ⟨hkind, hblock, hclose', hrest⟩ := hbody
    obtain ⟨fuel, rfl⟩ := Nat.exists_eq_add_one_of_ne_zero (Nat.ne_zero_of_lt hfuel)
    rw [Body.chain_lines_append] at hs
    obtain ⟨s₁, hline, hs₁, hlen⟩ := hs.getLine_cons
    have hfuel₁ : s₁.lines.length < fuel := by omega
    obtain ⟨hchain, hend, -, -, name, tail, htoken⟩ := lineKind_chain hkind
    obtain ⟨s₂, hskip, hs₂, hlen₂⟩ := ihBlock hblock hclose' hs₁ hfuel₁
    obtain ⟨s₃, hskip', hs₃, hlen₃⟩ := ihRest hrest hclose hs₂ (hlen₂.trans hfuel₁)
    refine ⟨s₃, ?_, hs₃, (hlen₃.trans hlen₂).trans hlen⟩
    rw [skipValueObject, hs.eof, hline, if_neg Bool.false_ne_true]
    dsimp only
    rw [hend, if_neg Bool.false_ne_true, hchain, htoken, if_pos ⟨rfl, rfl⟩, hskip]
    exact hskip'

section PutLine
variable {n fuel : Nat} {base : Int} {desc : Option (List ChainMember)}
  {members : List ChainMember} {m : ChainMember} {f : Filling n} {s s₁ : Stream} {line : Bytes}

theorem put_end (heof : s.eof = false) (hline : getLine s = (some line, s₁))
    (hkind : lineKind line = .chainEnd) :
    putValueObject T (fuel + 1) s base desc f = some (some f.emptyChain, f.entry, s₁) := by
  rw [putValueObject, heof, hline, if_neg Bool.false_ne_true]
  dsimp only
  rw [lineKind_chainEnd hkind, if_pos rfl]

theorem put_trailer (heof : s.eof = false) (hline : getLine s = (some line, s₁))
    (hkind : lineKind line = .trailer) :
    putValueObject T (fuel + 1) s base desc f =
      putValueObject T fuel s₁ base desc { f with emptyChain := false } := by
  obtain ⟨-, hend, hchain, hvalue⟩ := lineKind_trailer hkind
  rw [putValueObject, heof, hline, if_neg Bool.false_ne_true]
  dsimp only
  rw [hend, hchain, hvalue, if_neg Bool.false_ne_true, if_neg Bool.false_ne_true,
    if_neg Bool.false_ne_true]

theorem put_value (heof : s.eof = false) (hline : getLine s = (some line, s₁))
    (hkind : lineKind line = .value) :
    putValueObject T (fuel + 1) s base desc f =
      (putValue T base desc line f).bind fun f' => putValueObject T fuel s₁ base desc f' := by
  obtain ⟨hvalue, hend, hchain, -⟩ := lineKind_value hkind
  rw [putValueObject, heof, hline, if_neg Bool.false_ne_true]
  dsimp only
  rw [hend, hchain, hvalue, if_neg Bool.false_ne_true, if_neg Bool.false_ne_true, if_pos rfl]
  cases putValue T base desc line f with
  | none => rfl
  | some f' => rfl

/-- The line of an object needs a descriptor. -/
theorem put_missing (heof : s.eof = false) (hline : getLine s = (some line, s₁))
    (hkind : lineKind line = .chain) :
    putValueObject T (fuel + 1) s base none f = none := by
  obtain ⟨hchain, hend, -, -, name, tail, htoken⟩ := lineKind_chain hkind
  rw [putValueObject, heof, hline, if_neg Bool.false_ne_true]
  dsimp only
  rw [hend, hchain, htoken, if_neg Bool.false_ne_true, if_pos rfl]

/-- An object that no member has the name of is skipped. -/
theorem put_unknown (heof : s.eof = false) (hline : getLine s = (some line, s₁))
    (hkind : lineKind line = .chain) (hmember : objectMember members line = none) :
    putValueObject T (fuel + 1) s base (some members) f =
      (skipValueObject fuel s₁).bind fun skipped =>
        putValueObject T fuel skipped.2 base (some members)
          { f with emptyChain := skipped.1 } := by
  obtain ⟨hchain, hend, -, -, name, tail, htoken⟩ := lineKind_chain hkind
  rw [objectMember, htoken, Option.bind_some] at hmember
  rw [putValueObject, heof, hline, if_neg Bool.false_ne_true]
  dsimp only
  rw [hend, hchain, htoken, if_neg Bool.false_ne_true, if_pos rfl]
  dsimp only
  rw [show members.find? (fun m => m.name == name) = none from hmember]
  cases skipValueObject fuel s₁ with
  | none => rfl
  | some skipped => rfl

/-- An object of a member is loaded to the next place of its array, or skipped if there is none. -/
theorem put_object (heof : s.eof = false) (hline : getLine s = (some line, s₁))
    (hkind : lineKind line = .chain) (hmember : objectMember members line = some m)
    {info : List ChainObj} {k : Nat} (hget : getObjectInfo f.info m = some (some (info, k))) :
    putValueObject T (fuel + 1) s base (some members) f =
      if hasRoom info k then
        (putValueObject T fuel s₁ (base + m.offset + (info.getD k ⟨[], 0, 0, 0⟩).curNum *
            (info.getD k ⟨[], 0, 0, 0⟩).objPerSize) m.recordDesc
            { entry := f.entry, info := [], emptyChain := true }).bind fun nested =>
          nested.1.elim (some (none, nested.2)) fun _ =>
            putValueObject T fuel nested.2.2 base (some members)
              { entry := nested.2.1, info := counted info k, emptyChain := false }
      else
        (skipValueObject fuel s₁).bind fun skipped =>
          putValueObject T fuel skipped.2 base (some members)
            { f with info := counted info k, emptyChain := false } := by
  obtain ⟨hchain, hend, -, -, name, tail, htoken⟩ := lineKind_chain hkind
  rw [objectMember, htoken, Option.bind_some] at hmember
  rw [putValueObject, heof, hline, if_neg Bool.false_ne_true]
  dsimp only
  rw [hend, hchain, htoken, if_neg Bool.false_ne_true, if_pos rfl]
  dsimp only
  rw [show members.find? (fun m => m.name == name) = some m from hmember]
  dsimp only
  rw [hget]
  dsimp only
  by_cases hroom : hasRoom info k
  · rw [if_pos hroom, if_pos (show _ < _ from hroom)]
    cases putValueObject T fuel s₁ _ m.recordDesc
        { entry := f.entry, info := [], emptyChain := true } with
    | none => rfl
    | some nested =>
      obtain ⟨_ | _, entry, s₂⟩ := nested
      · rfl
      · rfl
  · rw [if_neg hroom, if_neg (show ¬ _ < _ from hroom)]
    cases skipValueObject fuel s₁ with
    | none => rfl
    | some skipped => rfl

theorem object_got {res : Option Bool × Block n × Stream} {b : Bool} (hres : res.1 = some b)
    (heof : s.eof = false) (hline : getLine s = (some line, s₁)) (hkind : lineKind line = .chain)
    (hmember : objectMember members line = some m)
    (h : putValueObject T (fuel + 1) s base (some members) f = some res) :
    ∃ info k, getObjectInfo f.info m = some (some (info, k)) := by
  obtain ⟨hchain, hend, -, -, name, tail, htoken⟩ := lineKind_chain hkind
  rw [objectMember, htoken, Option.bind_some] at hmember
  rw [putValueObject, heof, hline, if_neg Bool.false_ne_true] at h
  dsimp only at h
  rw [hend, hchain, htoken, if_neg Bool.false_ne_true, if_pos rfl] at h
  dsimp only at h
  rw [show members.find? (fun m => m.name == name) = some m from hmember] at h
  dsimp only at h
  cases hget : getObjectInfo f.info m with
  | none =>
    rw [hget] at h
    cases h
  | some found =>
  rw [hget] at h
  cases found with
  | none =>
    cases h
    cases hres
  | some place => exact ⟨place.1, place.2, rfl⟩

end PutLine

theorem put_spent {n fuel : Nat} {base : Int} {desc : Option (List ChainMember)} {f : Filling n}
    {res : Option Bool} {entry : Block n} {s : Stream}
    (h : putValueObject T fuel spent base desc f = some (res, entry, s)) : s = spent := by
  cases fuel with
  | zero => cases h
  | succ fuel =>
    cases h
    rfl

theorem put_nil {n fuel : Nat} {base : Int} {desc : Option (List ChainMember)} {f : Filling n}
    {res : Option Bool} {entry : Block n} {s s' : Stream} (hs : Holds s [])
    (h : putValueObject T fuel s base desc f = some (res, entry, s')) : s' = spent := by
  cases fuel with
  | zero => cases h
  | succ fuel =>
    rw [putValueObject, hs.eof, hs.getLine_nil] at h
    cases h
    rfl

theorem putValue_info {n : Nat} {base : Int} {desc : Option (List ChainMember)} {line : Bytes}
    {f f' : Filling n} (hline : lineKind line = .value)
    (h : putValue T base desc line f = some f') : desc.isSome = true ∧ f'.info = f.info := by
  obtain ⟨-, -, -, -, name, tail, value, hname, hvalue⟩ := lineKind_value hline
  rw [putValue, hname] at h
  dsimp only at h
  cases desc with
  | none => cases h
  | some members =>
    refine ⟨rfl, ?_⟩
    dsimp only at h
    split at h
    · cases h
      rfl
    rw [hvalue] at h
    dsimp only at h
    split at h
    · cases h
      rfl
    split at h
    · cases h
    split at h
    · cases h
    · cases h
      rfl

/-- Loading a block ends behind it, and the block is taken, or at the end of the file. -/
theorem put_closes {n fuel : Nat} {base : Int} {desc : Option (List ChainMember)}
    {f : Filling n} {b : Bool} {entry : Block n} {s s' : Stream} {ts : List Bytes}
    (hs : Holds s ts) (hlisting : Listing ts)
    (h : putValueObject T fuel s base desc f = some (some b, entry, s')) :
    Closes (fun body => body.Taken desc f.info) ts s' := by
  induction fuel generalizing s s' ts b base desc f entry with
  | zero => cases h
  | succ fuel ih =>
    cases ts with
    | nil => exact Or.inl (put_nil hs h)
    | cons t ts =>
    obtain ⟨s₁, hline, hs₁, -⟩ := hs.getLine_cons
    rcases Listing.cases hlisting with ⟨htrailer, rfl⟩ | ⟨hkind, hrest⟩
    · rw [put_trailer hs.eof hline htrailer] at h
      exact Or.inl (put_nil hs₁ h)
    rcases hkind with hkind | hkind | hkind
    · rw [put_value hs.eof hline hkind] at h
      obtain ⟨f', hput, h⟩ := Option.bind_eq_some_iff.mp h
      obtain ⟨hdesc, hinfo⟩ := putValue_info hkind hput
      refine (ih hs₁ hrest h).value hkind fun body hbody => ?_
      rw [hinfo] at hbody
      exact ⟨hdesc, hbody⟩
    · cases desc with
      | none =>
        rw [put_missing hs.eof hline hkind] at h
        cases h
      | some members =>
      cases hmember : objectMember members t with
      | none =>
        rw [put_unknown hs.eof hline hkind hmember] at h
        obtain ⟨skipped, hskip, h⟩ := Option.bind_eq_some_iff.mp h
        rcases skip_closes hs₁ hrest hskip with
          hspent | ⟨block, close, ts', hblock, hclose, rfl, hs₂, hts', -⟩
        · rw [hspent] at h
          exact Or.inl (put_spent h)
        · refine Closes.chain hkind hblock hclose (ih hs₂ hts' h) fun body hbody => ?_
          refine ⟨members, rfl, ?_⟩
          rw [hmember]
          exact hbody
      | some m =>
      obtain ⟨info', k, hget⟩ := object_got rfl hs.eof hline hkind hmember h
      have hnext : ∀ block close body, (hasRoom info' k → block.Taken m.recordDesc []) →
          body.Taken (some members) (counted info' k) →
          (Body.chain t block close body).Taken (some members) f.info := by
        intro block close body hblock hbody
        refine ⟨members, rfl, ?_⟩
        rw [hmember]
        exact ⟨info', k, hget, hblock, hbody⟩
      rw [put_object hs.eof hline hkind hmember hget] at h
      by_cases hroom : hasRoom info' k
      · rw [if_pos hroom] at h
        obtain ⟨⟨_ | b', entry', s₂⟩, hnested, h⟩ := Option.bind_eq_some_iff.mp h
        · cases h
        rcases ih hs₁ hrest hnested with
          hspent | ⟨block, close, ts', hblock, hclose, rfl, hs₂, hts', htaken⟩
        · rw [hspent] at h
          exact Or.inl (put_spent h)
        · exact Closes.chain hkind hblock hclose (ih hs₂ hts' h) fun body hbody =>
            hnext block close body (fun _ => htaken) hbody
      · rw [if_neg hroom] at h
        obtain ⟨skipped, hskip, h⟩ := Option.bind_eq_some_iff.mp h
        rcases skip_closes hs₁ hrest hskip with
          hspent | ⟨block, close, ts', hblock, hclose, rfl, hs₂, hts', -⟩
        · rw [hspent] at h
          exact Or.inl (put_spent h)
        · exact Closes.chain hkind hblock hclose (ih hs₂ hts' h) fun body hbody =>
            hnext block close body (fun h => absurd h hroom) hbody
    · rw [put_end hs.eof hline hkind] at h
      cases h
      exact Closes.done hkind hs₁ hrest trivial

theorem member_fits {members : List ChainMember} {room : Int} (h : DescFits members room)
    {m : ChainMember} (hm : m ∈ members) : MemberFits m room := by
  induction members with
  | nil => cases hm
  | cons m' members ih =>
    rw [DescFits] at h
    rcases List.mem_cons.mp hm with rfl | hm
    · exact h.1
    · exact ih h.2 hm

theorem value_fits {m : ChainMember} {room : Int} (h : MemberFits m room) :
    0 ≤ m.offset ∧ m.offset + m.type.width m.size.toNat ≤ room := by
  obtain ⟨name, type, offset, size, _ | desc⟩ := m
  · rw [MemberFits] at h
    change 0 ≤ offset ∧ offset + type.width size.toNat ≤ room
    omega
  · rw [MemberFits] at h
    change 0 ≤ offset ∧ offset + type.width size.toNat ≤ room
    omega

theorem object_fits {m : ChainMember} {room : Int} (h : MemberFits m room)
    {desc : List ChainMember} (hdesc : m.recordDesc = some desc) :
    0 ≤ m.offset ∧ 0 ≤ m.size ∧ m.offset + m.size ≤ room ∧ m.name.length < 32 ∧
      0 < unitSize desc ∧ DescFits desc (unitSize desc) := by
  obtain ⟨name, type, offset, size, desc'⟩ := m
  change desc' = some desc at hdesc
  subst hdesc
  rw [MemberFits] at h
  obtain ⟨hoffset, hsize, hfit, hname, hunit, hdesc⟩ := h
  change 0 ≤ offset ∧ 0 ≤ size ∧ offset + size ≤ room ∧ name.length < 32 ∧ _
  exact ⟨hoffset, hsize, by omega, hname, hunit, hdesc⟩

theorem memberNamed_mem {members : List ChainMember} {pname : Bytes} {m : ChainMember}
    (h : memberNamed members pname = some m) : m ∈ members ∧ m.name = pname :=
  ⟨List.mem_of_find?_eq_some h, eq_of_beq (List.find?_some h :)⟩

theorem objectMember_named {members : List ChainMember} {line : Bytes} {m : ChainMember}
    (h : objectMember members line = some m) :
    memberNamed members m.name = some m ∧ m ∈ members := by
  obtain ⟨token, -, hmember⟩ := Option.bind_eq_some_iff.mp h
  obtain ⟨hmem, hname⟩ := memberNamed_mem hmember
  exact ⟨by rw [hname]; exact hmember, hmem⟩

/-- What is kept of an object are the sizes of the member of its name. -/
def InfoFits (members : List ChainMember) (info : List ChainObj) : Prop :=
  ∀ obj ∈ info, ∀ m ∈ memberNamed members obj.objName, ∀ desc ∈ m.recordDesc,
    obj.objPerSize = unitSize desc ∧ obj.objMaxNum = m.size.tdiv (unitSize desc)

theorem getD_mem {info : List ChainObj} {k : Nat} (hk : k < info.length) :
    info.getD k ⟨[], 0, 0, 0⟩ ∈ info := by
  rw [List.getD_eq_getElem _ _ hk]
  exact List.getElem_mem hk

theorem InfoFits.counted {members : List ChainMember} {info : List ChainObj}
    (h : InfoFits members info) {k : Nat} (hk : k < info.length) :
    InfoFits members (counted info k) := by
  intro obj hobj
  rcases List.mem_or_eq_of_mem_set hobj with hmem | rfl
  · exact h obj hmem
  · exact h (info.getD k ⟨[], 0, 0, 0⟩) (getD_mem hk)

/-- The object that is found has the sizes of its member. -/
theorem getObjectInfo_fits {members : List ChainMember} {info info' : List ChainObj} {k : Nat}
    (h : InfoFits members info) {m : ChainMember} {desc : List ChainMember}
    (hm : memberNamed members m.name = some m) (hdesc : m.recordDesc = some desc)
    (hname : m.name.length < 32) (hinfo : getObjectInfo info m = some (some (info', k))) :
    k < info'.length ∧ InfoFits members info' ∧
      (info'.getD k ⟨[], 0, 0, 0⟩).objPerSize = unitSize desc ∧
      (info'.getD k ⟨[], 0, 0, 0⟩).objMaxNum = m.size.tdiv (unitSize desc) := by
  have htake : m.name.take 32 = m.name := List.take_of_length_le (by omega)
  have htake' : m.name.take 31 = m.name := List.take_of_length_le (by omega)
  rw [getObjectInfo, hdesc, htake, htake'] at hinfo
  dsimp only at hinfo
  split at hinfo
  · rename_i hfound
    cases hinfo
    have hobj := List.findIdx_getElem (w := hfound)
    have heq : (info.getD (info.findIdx fun obj => obj.objName == m.name)
        ⟨[], 0, 0, 0⟩).objName = m.name := by
      rw [List.getD_eq_getElem _ _ hfound]
      exact eq_of_beq hobj
    obtain ⟨hper, hmax⟩ := h _ (getD_mem hfound) m (by rw [heq]; exact hm) desc hdesc
    exact ⟨hfound, h, hper, hmax⟩
  split at hinfo
  · cases hinfo
  have hnew : ∀ m' ∈ memberNamed members m.name, ∀ desc' ∈ m'.recordDesc,
      unitSize desc = unitSize desc' ∧
        m.size.tdiv (unitSize desc) = m'.size.tdiv (unitSize desc') := by
    intro m' hm' desc' hdesc'
    cases hm.symm.trans hm'
    cases hdesc.symm.trans hdesc'
    exact ⟨rfl, rfl⟩
  split at hinfo
  · rename_i hfull
    cases hinfo
    have hpos : 0 < info.length := by
      rw [hfull]
      decide
    refine ⟨by rwa [List.length_set], ?_, ?_⟩
    · intro obj hobj
      rcases List.mem_or_eq_of_mem_set hobj with hmem | rfl
      · exact h obj hmem
      · exact hnew
    · rw [List.getD_eq_getElem _ _ (by rwa [List.length_set]), List.getElem_set_self]
      exact ⟨rfl, rfl⟩
  · cases hinfo
    refine ⟨by simp, ?_, ?_⟩
    · intro obj hobj
      rcases List.mem_append.mp hobj with hmem | hmem
      · exact h obj hmem
      · rw [List.mem_singleton.mp hmem]
        exact hnew
    · rw [List.getD_eq_getElem _ _ (by simp), List.getElem_concat_length rfl]
      exact ⟨rfl, rfl⟩

/-- A value line of a block is taken, and the block is no longer empty if it names a member. -/
theorem putValue_fits {n : Nat} {base room : Int} {members : List ChainMember}
    (hfits : DescFits members room) (hbase : 0 ≤ base) (hroom : base + room ≤ n) {line : Bytes}
    (hline : lineKind line = .value)
    (hvalid : ∀ m ∈ valueMember members line, ∀ string ∈ valueText line,
      ValidText T string m.type m.size.toNat) (f : Filling n) :
    ∃ entry, putValue T base (some members) line f =
      some { f with entry := entry,
                    emptyChain := f.emptyChain && (valueMember members line).isNone } := by
  obtain ⟨-, -, -, -, name, tail, string, hname, hstring⟩ := lineKind_value hline
  have hmember : valueMember members line = memberNamed members name := by
    rw [valueMember, hname, Option.bind_some]
  have htext : valueText line = some string := by
    rw [valueText, hname]
    exact hstring
  rw [putValue, hname]
  rw [hmember] at hvalid ⊢
  cases hfound : memberNamed members name with
  | none =>
    refine ⟨f.entry, ?_⟩
    dsimp only
    rw [show members.find? (fun m => m.name == name) = none from hfound]
    simp
  | some m =>
  obtain ⟨hfails, hsome, -⟩ := hvalid m hfound string htext
  obtain ⟨data, hdata⟩ := Option.isSome_iff_exists.mp hsome
  obtain ⟨hoffset, hwidth⟩ := value_fits (member_fits hfits (memberNamed_mem hfound).1)
  have hlen := stringToMib_length_le hdata
  obtain ⟨entry, hentry⟩ := f.entry.write_fits
    (show (base + m.offset).toNat + data.length ≤ n by omega)
  refine ⟨entry, ?_⟩
  dsimp only
  rw [show members.find? (fun m => m.name == name) = some m from hfound, hstring]
  dsimp only
  rw [hfails, if_neg Bool.false_ne_true, if_neg (by omega), hdata, Option.bind_some, hentry]
  simp

/-- The next slot of an array that is not full lies in the array. -/
theorem slot_inside {size unit : Int} {curNum : Nat} (hsize : 0 ≤ size) (hunit : 0 < unit)
    (hroom : (curNum : Int) < size.tdiv unit) :
    0 ≤ curNum * unit ∧ curNum * unit + unit ≤ size := by
  have hlt : (curNum : Int) + 1 ≤ size.tdiv unit := hroom
  rw [Int.tdiv_eq_ediv_of_nonneg hsize] at hlt
  have hspace := (Int.le_ediv_iff_mul_le hunit).mp hlt
  rw [add_mul, one_mul] at hspace
  exact ⟨mul_nonneg (Int.natCast_nonneg _) hunit.le, hspace⟩

/-- A closed block that is taken is loaded up to its end. -/
theorem put_body {n : Nat} {body : Body} (hbody : body.Formed) {close : Bytes}
    (hclose : lineKind close = .chainEnd) {fuel : Nat} {s : Stream} {ts : List Bytes}
    (hs : Holds s (body.lines ++ close :: ts)) (hfuel : s.lines.length < fuel) {base room : Int}
    {desc : Option (List ChainMember)} {f : Filling n} (htaken : body.Taken desc f.info)
    (hfits : ∀ members ∈ desc, DescFits members room)
    (hvalid : ∀ members ∈ desc, body.MembersValid T members)
    (hinfo : ∀ members ∈ desc, InfoFits members f.info) (hbase : 0 ≤ base)
    (hroom : base + room ≤ n) :
    ∃ entry s', putValueObject T fuel s base desc f =
        some (some (f.emptyChain && body.blank (desc.getD [])), entry, s') ∧ Holds s' ts ∧
      s'.lines.length < s.lines.length := by
  induction body generalizing close fuel s ts base room desc f with
  | done =>
    obtain ⟨fuel, rfl⟩ := Nat.exists_eq_add_one_of_ne_zero (Nat.ne_zero_of_lt hfuel)
    obtain ⟨s₁, hline, hs₁, hlen⟩ := hs.getLine_cons
    refine ⟨f.entry, s₁, ?_, hs₁, hlen⟩
    rw [put_end hs.eof hline hclose, Body.blank, Bool.and_true]
  | value line rest ih =>
    obtain ⟨fuel, rfl⟩ := Nat.exists_eq_add_one_of_ne_zero (Nat.ne_zero_of_lt hfuel)
    obtain ⟨s₁, hline, hs₁, hlen⟩ := hs.getLine_cons
    have hfuel₁ : s₁.lines.length < fuel := by omega
    obtain ⟨hkind, hrest⟩ := hbody
    obtain ⟨hdesc, htaken⟩ := htaken
    obtain ⟨members, rfl⟩ := Option.isSome_iff_exists.mp hdesc
    obtain ⟨hnow, hlater⟩ := hvalid members rfl
    obtain ⟨entry, hput⟩ := putValue_fits (hfits members rfl) hbase hroom hkind hnow f
    obtain ⟨entry', s₂, hrun, hs₂, hlen₂⟩ := ih hrest hclose hs₁ hfuel₁
      (f := { f with entry := entry,
                     emptyChain := f.emptyChain && (valueMember members line).isNone })
      htaken hfits (by rintro _ ⟨⟩; exact hlater) hinfo hbase hroom
    refine ⟨entry', s₂, ?_, hs₂, hlen₂.trans hlen⟩
    rw [put_value hs.eof hline hkind, hput, Option.bind_some, hrun, Body.blank, Bool.and_assoc]
    rfl
  | chain line block close' rest ihBlock ihRest =>
    obtain ⟨fuel, rfl⟩ := Nat.exists_eq_add_one_of_ne_zero (Nat.ne_zero_of_lt hfuel)
    obtain ⟨hkind, hblock, hclose', hrest⟩ := hbody
    rw [Body.chain_lines_append] at hs
    obtain ⟨s₁, hline, hs₁, hlen⟩ := hs.getLine_cons
    have hfuel₁ : s₁.lines.length < fuel := by omega
    obtain ⟨members, rfl, htaken⟩ := htaken
    obtain ⟨hnow, hlater⟩ := hvalid members rfl
    have hvalid' : ∀ members' ∈ some members, rest.MembersValid T members' := by
      rintro _ ⟨⟩
      exact hlater
    rw [Body.blank, Bool.and_false]
    cases hmember : objectMember members line with
    | none =>
      rw [hmember] at htaken
      obtain ⟨s₂, hskip, hs₂, hlen₂⟩ := skip_body hblock hclose' hs₁ hfuel₁
      obtain ⟨entry, s₃, hrun, hs₃, hlen₃⟩ := ihRest hrest hclose hs₂ (hlen₂.trans hfuel₁)
        (f := { f with emptyChain := false }) htaken hfits hvalid' hinfo hbase hroom
      refine ⟨entry, s₃, ?_, hs₃, (hlen₃.trans hlen₂).trans hlen⟩
      rw [put_unknown hs.eof hline hkind hmember, hskip, Option.bind_some, hrun, Bool.false_and]
    | some m =>
    rw [hmember] at htaken
    obtain ⟨info', k, hget, hunits, htaken⟩ := htaken
    obtain ⟨hnamed, hmem⟩ := objectMember_named hmember
    rw [put_object hs.eof hline hkind hmember hget]
    obtain ⟨desc, hdesc⟩ : ∃ desc, m.recordDesc = some desc := by
      cases hdesc : m.recordDesc with
      | none =>
        rw [getObjectInfo, hdesc] at hget
        cases hget
      | some desc => exact ⟨desc, rfl⟩
    obtain ⟨hoffset, hsize, hfit, hshort, hunit, hdescFits⟩ :=
      object_fits (member_fits (hfits members rfl) hmem) hdesc
    obtain ⟨hk, hinfo', hper, hmax⟩ := getObjectInfo_fits (hinfo members rfl)
      hnamed hdesc hshort hget
    have hcounted : ∀ members' ∈ some members, InfoFits members' (counted info' k) := by
      rintro _ ⟨⟩
      exact hinfo'.counted hk
    by_cases hfree : hasRoom info' k
    · have hplace := hfree
      rw [hasRoom, hmax] at hplace
      obtain ⟨hfront, hbehind⟩ := slot_inside hsize hunit hplace
      have hlow : 0 ≤ base + m.offset + (info'.getD k ⟨[], 0, 0, 0⟩).curNum *
          (info'.getD k ⟨[], 0, 0, 0⟩).objPerSize := by
        rw [hper]
        omega
      have hhigh : base + m.offset + (info'.getD k ⟨[], 0, 0, 0⟩).curNum *
          (info'.getD k ⟨[], 0, 0, 0⟩).objPerSize + unitSize desc ≤ n := by
        rw [hper]
        omega
      have hobjectFits : ∀ members' ∈ m.recordDesc, DescFits members' (unitSize desc) := by
        rw [hdesc]
        rintro _ ⟨⟩
        exact hdescFits
      obtain ⟨entry, s₂, hnested, hs₂, hlen₂⟩ := ihBlock hblock hclose' hs₁ hfuel₁
        (f := { entry := f.entry, info := [], emptyChain := true }) (hunits hfree) hobjectFits
        (by rw [hdesc]; rintro _ ⟨⟩; exact hnow m hmember desc hdesc)
        (by intro _ _ obj hobj; cases hobj) hlow hhigh
      obtain ⟨entry', s₃, hrun, hs₃, hlen₃⟩ := ihRest hrest hclose hs₂ (hlen₂.trans hfuel₁)
        (f := { entry := entry, info := counted info' k, emptyChain := false }) htaken hfits
        hvalid' hcounted hbase hroom
      refine ⟨entry', s₃, ?_, hs₃, (hlen₃.trans hlen₂).trans hlen⟩
      rw [if_pos hfree, hnested, Option.bind_some, Option.elim_some, hrun, Bool.false_and]
    · obtain ⟨s₂, hskip, hs₂, hlen₂⟩ := skip_body hblock hclose' hs₁ hfuel₁
      obtain ⟨entry, s₃, hrun, hs₃, hlen₃⟩ := ihRest hrest hclose hs₂ (hlen₂.trans hfuel₁)
        (f := { f with info := counted info' k, emptyChain := false }) htaken hfits hvalid'
        hcounted hbase hroom
      refine ⟨entry, s₃, ?_, hs₃, (hlen₃.trans hlen₂).trans hlen⟩
      rw [if_neg hfree, hskip, Option.bind_some, hrun, Bool.false_and]

end XmlBlocks
