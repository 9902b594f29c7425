import BoaGateway.EscapeText
import BoaGateway.ShmClients
import BoaGateway.XmlLoad

/-!
# Records with escaped texts

`mib_chain_update` takes the escapes out of the texts of a record before it sends the record. It
does so in the record of its caller, one member after the other, and takes the length of a text
from the first zero byte behind its beginning.
-/

namespace RecordEscapes

open ByteBlocks MibTypes MibChain MsgParser XmlLoad Texts EscapeText
open ChainAddClients (Args)
open ShmClients (Ask)

variable {n : Nat}

/-- A text shares no byte with another member. -/
def Apart (m m' : ChainMember) : Prop :=
  m.type = .string ∨ m'.type = .string →
    m.offset + m.size ≤ m'.offset ∨ m'.offset + m'.size ≤ m.offset

/-- In the tables of the source the members of a descriptor are the fields of a structure. -/
structure RecordTables extends XmlTables where
  members_apart : ∀ e ∈ chainTable, ∀ desc ∈ e.recordDesc, desc.Pairwise Apart

instance : Std.Symm Apart where
  symm _ _ h := fun hstring => (h hstring.symm).symm

/-- The loop over the members. -/
def unescapeMembers : List ChainMember → Block n → Option (Block n)
  | [], ptr => some ptr
  | m :: ms, ptr =>
    if m.type = .string then
      if 0 ≤ m.offset ∧ (0 : UInt8) ∈ ptr.1.drop m.offset.toNat then
        match delEscapeStr ptr m.offset.toNat (strlen (ptr.1.drop m.offset.toNat)) 0 with
        | none => none
        | some (ptr, _) => unescapeMembers ms ptr
      else none
    else unescapeMembers ms ptr

/-- `mib_chain_get_record_desc`: what the server answers, which follows the pointer to the
descriptor without a test; `some none` is a failure. -/
def mibChainGetRecordDesc (T : Tables) (wlan : Option (Nat × Int)) (id : Int) :
    Option (Option (List ChainMember)) :=
  match Args.chainId ⟨id, [], wlan⟩ with
  | none => some none
  | some id =>
    match mibChainMib2tblId T id with
    | none => some none
    | some i => (T.chainEntry i).recordDesc.map some

/-- `mib_chain_update` up to its request; `some none` is a return without one. -/
def mibChainUpdate (T : Tables) (gDelEscapechar : Bool) (wlan : Option (Nat × Int)) (id : Int)
    (ptr : Block n) (recordNum : UInt32) : Option (Option Ask) :=
  match if gDelEscapechar then mibChainGetRecordDesc T wlan id else some (some []) with
  | none => none
  | some none => some none
  | some (some recordDesc) =>
    match Args.chainId ⟨id, [], wlan⟩ with
    | none => some none
    | some id =>
      match mibChainMib2tblId T id with
      | none => some none
      | some i =>
        let size := (T.chainEntry i).perRecordSize
        if T.shmSize ≤ size then some none
        else
          match if gDelEscapechar then unescapeMembers recordDesc ptr else some ptr with
          | none => none
          | some ptr =>
            (ptr.read 0 size).map fun data =>
              some (.record id size (.update recordNum data.1))

/-- The bytes of a member. -/
def slice (v : Block n) (m : ChainMember) : Bytes := (v.1.drop m.offset.toNat).take m.size.toNat

/-- A member whose text has lost its escapes, with zero bytes where the text was longer. -/
def unescaped (bytes : Bytes) : Bytes :=
  unescape (cstr bytes) ++ List.replicate (strlen bytes - (unescape (cstr bytes)).length) 0 ++
    bytes.drop (strlen bytes)

/-- The texts of the record have lost their escapes, and nothing else has changed. -/
structure Unescaped (desc : List ChainMember) (v v' : Block n) : Prop where
  strings : ∀ m ∈ desc, m.type = .string → slice v' m = unescaped (slice v m)
  outside : ∀ k : Nat, (∀ m ∈ desc, m.type = .string →
    (k : Int) < m.offset ∨ m.offset + m.size ≤ k) → v'.1[k]? = v.1[k]?

/-- `delEscapeStr` gets by with the bytes of the member. -/
def StaysInside (v : Block n) (m : ChainMember) : Prop :=
  ∃ res, delEscapeStr (Block.ofBytes (slice v m)) 0 (strlen (v.1.drop m.offset.toNat)) 0 = some res

/-- A zero byte stands in the member or directly behind it. -/
def TextEnds (v : Block n) (m : ChainMember) : Prop :=
  (0 : UInt8) ∈ slice v m ∨ v.1[m.offset.toNat + m.size.toNat]? = some 0

/-- The text has no end: the record ends with the member. -/
def AtEnd (v : Block n) (m : ChainMember) : Prop :=
  (0 : UInt8) ∉ slice v m ∧ n ≤ m.offset.toNat + m.size.toNat

def PlainHead (v : Block n) (m : ChainMember) : Prop :=
  ∀ c, (slice v m).head? = some c → isSpecial c = false

/-- The member lies in the record. -/
structure Fits (n : Nat) (m : ChainMember) : Prop where
  offset : 0 ≤ m.offset
  size : 0 ≤ m.size
  inside : m.offset + m.size ≤ n

theorem fits_of_desc {desc : List ChainMember} (h : DescFits desc n) :
    ∀ m ∈ desc, Fits n m := by
  induction desc with
  | nil => exact fun m hm => absurd hm List.not_mem_nil
  | cons m ms ih =>
    rw [DescFits] at h
    refine List.forall_mem_cons.mpr ⟨?_, ih h.2⟩
    obtain ⟨name, type, offset, size, desc⟩ := m
    have hm := h.1
    cases desc with
    | none =>
      rw [MemberFits] at hm
      exact ⟨hm.1, hm.2.1, by simp only [ChainMember.offset, ChainMember.size]; omega⟩
    | some desc =>
      rw [MemberFits] at hm
      exact ⟨hm.1, hm.2.1, by simp only [ChainMember.offset, ChainMember.size]; omega⟩

variable {m m' : ChainMember} {v v' : Block n}

theorem Fits.toNat (h : Fits n m) : m.offset.toNat + m.size.toNat ≤ n := by
  have := h.inside
  have := h.offset
  have := h.size
  omega

theorem slice_length (h : Fits n m) (v : Block n) : (slice v m).length = m.size.toNat := by
  have hn := h.toNat
  rw [slice, List.length_take, List.length_drop, v.2]
  omega

theorem slice_getElem? (v : Block n) {k : Nat} (hk : k < m.size.toNat) :
    (slice v m)[k]? = v.1[m.offset.toNat + k]? := by
  rw [slice, List.getElem?_take_of_lt hk, List.getElem?_drop]

theorem strlen_le_length (b : Bytes) : strlen b ≤ b.length := (cstr_isPrefix b).length_le

theorem slice_append (v : Block n) (m : ChainMember) : v.1.drop m.offset.toNat =
    slice v m ++ v.1.drop (m.offset.toNat + m.size.toNat) := by
  rw [slice, ← List.drop_drop, List.take_append_drop]

/-- A text that ends in the member, or with it. -/
theorem strlen_le_of_ends (h : Fits n m) (hends : TextEnds v m) :
    strlen (v.1.drop m.offset.toNat) ≤ m.size.toNat ∧
      (0 : UInt8) ∈ v.1.drop m.offset.toNat := by
  have hslice := slice_length h v
  have hsplit := slice_append v m
  rcases hends with hnul | hnul
  · rw [hsplit, strlen, cstr_append_of_nul hnul]
    exact ⟨hslice ▸ (strlen_le_length (slice v m)), List.mem_append_left _ hnul⟩
  · by_cases hin : (0 : UInt8) ∈ slice v m
    · rw [hsplit, strlen, cstr_append_of_nul hin]
      exact ⟨hslice ▸ (strlen_le_length (slice v m)), List.mem_append_left _ hin⟩
    · obtain ⟨hlt, hval⟩ := List.getElem?_eq_some_iff.mp hnul
      rw [hsplit, List.drop_eq_getElem_cons hlt, hval, strlen, cstr_nul_free hin, hslice]
      exact ⟨Nat.le_refl _, by simp⟩

/-- Otherwise it stays in the member only where the record ends. -/
theorem strlen_le_iff (h : Fits n m) : strlen (v.1.drop m.offset.toNat) ≤ m.size.toNat ↔
    TextEnds v m ∨ AtEnd v m := by
  constructor
  · intro hlen
    rcases Nat.lt_or_ge (strlen (v.1.drop m.offset.toNat)) (v.1.drop m.offset.toNat).length
      with hlt | hge
    · have hzero : (v.1.drop m.offset.toNat)[strlen (v.1.drop m.offset.toNat)]? = some 0 := by
        have htake := congrArg (·[strlen (v.1.drop m.offset.toNat)]?) (take_strlen_succ hlt)
        rw [List.getElem?_take_of_lt (Nat.lt_succ_self _)] at htake
        rw [htake, strlen, List.getElem?_concat_length]
      rcases Nat.lt_or_ge (strlen (v.1.drop m.offset.toNat)) m.size.toNat with hin | hout
      · rw [← List.getElem?_take_of_lt hin] at hzero
        exact Or.inl (Or.inl (List.mem_of_getElem? hzero))
      · rw [Nat.le_antisymm hlen hout, List.getElem?_drop] at hzero
        exact Or.inl (Or.inr hzero)
    · rw [List.length_drop, v.2] at hge
      by_cases hnul : (0 : UInt8) ∈ slice v m
      · exact Or.inl (Or.inl hnul)
      · exact Or.inr ⟨hnul, by omega⟩
  · rintro (hends | ⟨-, hge⟩)
    · exact (strlen_le_of_ends h hends).1
    · refine (strlen_le_length _).trans ?_
      rw [List.length_drop, v.2]
      omega

/-- A text that stays in the member is the text of the member. -/
theorem cstr_slice (hlen : strlen (v.1.drop m.offset.toNat) ≤ m.size.toNat) :
    cstr (slice v m) = cstr (v.1.drop m.offset.toNat) :=
  cstr_take hlen

theorem head?_cstr {b : Bytes} {c : UInt8} (h : (cstr b).head? = some c) : b.head? = some c := by
  cases b with
  | nil => exact h
  | cons x b =>
    rw [cstr] at h
    split at h
    · cases h
    · exact h

/-- A zero byte stays where it is. -/
theorem unescaped_zero {b : Bytes} {k : Nat} (h : b[k]? = some 0) : (unescaped b)[k]? = some 0 := by
  have hle := unescape_length_le (cstr b)
  have hfirst : (unescape (cstr b) ++ List.replicate
      (strlen b - (unescape (cstr b)).length) (0 : UInt8)).length = strlen b := by
    rw [List.length_append, List.length_replicate, strlen]
    omega
  have hk : strlen b ≤ k := by
    by_contra hlt
    obtain ⟨rest, hrest⟩ := cstr_isPrefix b
    have hin : k < (cstr b).length := Nat.lt_of_not_le hlt
    rw [← hrest, List.getElem?_append_left hin] at h
    exact nul_not_mem_cstr b (List.mem_of_getElem? h)
  rw [unescaped, List.getElem?_append_right (by rw [hfirst]; exact hk), hfirst,
    List.getElem?_drop, Nat.add_sub_cancel' hk]
  exact h

/-- A member that begins with some bytes. -/
theorem slice_of_split {pre s rest : Bytes} (hv : v.1 = pre ++ (s ++ rest))
    (hpre : pre.length = m.offset.toNat) (hs : s.length ≤ m.size.toNat) :
    slice v m = s ++ rest.take (m.size.toNat - s.length) := by
  rw [slice, hv, List.drop_left' hpre, List.take_append, List.take_of_length_le hs]

theorem outside_of_split {pre s t rest : Bytes} (hv : v.1 = pre ++ (s ++ rest))
    (hv' : v'.1 = pre ++ (t ++ rest)) (hlen : s.length = t.length) {k : Nat}
    (hk : k < pre.length ∨ pre.length + s.length ≤ k) : v'.1[k]? = v.1[k]? := by
  rw [hv, hv']
  rcases hk with hk | hk
  · rw [List.getElem?_append_left hk, List.getElem?_append_left hk]
  · rw [List.getElem?_append_right (by omega), List.getElem?_append_right (by omega),
      List.getElem?_append_right (by omega), List.getElem?_append_right (by omega), hlen]

/-- The text of one member. -/
theorem delEscapeStr_member (h : Fits n m) (hends : TextEnds v m) (hhead : PlainHead v m) :
    ∃ v' len, delEscapeStr v m.offset.toNat (strlen (v.1.drop m.offset.toNat)) 0 =
        some (v', len) ∧
      slice v' m = unescaped (slice v m) ∧
      ∀ k : Nat, k < m.offset.toNat ∨ m.offset.toNat + m.size.toNat ≤ k → v'.1[k]? = v.1[k]? := by
  obtain ⟨hlen, -⟩ := strlen_le_of_ends h hends
  have htext := cstr_slice hlen
  obtain ⟨rest, hrest⟩ := cstr_isPrefix (v.1.drop m.offset.toNat)
  have hnul := nul_not_mem_cstr (v.1.drop m.offset.toNat)
  have hlen' : strlen (v.1.drop m.offset.toNat) = (cstr (v.1.drop m.offset.toNat)).length := rfl
  rw [hlen'] at hlen ⊢
  have hdata : v.1 = v.1.take m.offset.toNat ++ (cstr (v.1.drop m.offset.toNat) ++ rest) := by
    rw [hrest, List.take_append_drop]
  have hpre : (v.1.take m.offset.toNat).length = m.offset.toNat := by
    have := h.toNat
    rw [List.length_take, v.2]
    omega
  have hplain : ∀ c, (cstr (v.1.drop m.offset.toNat)).head? = some c → isSpecial c = false := by
    intro c hc
    rw [← htext] at hc
    exact hhead c (head?_cstr hc)
  generalize cstr (v.1.drop m.offset.toNat) = s at *
  obtain ⟨v', hrun, hv'⟩ := delEscapeStr_eq hnul
    (fun c hc hspecial => absurd hspecial (Bool.eq_false_iff.mp (hplain c hc))) hdata
  have hle := unescape_length_le s
  have hsame : (unescape s ++ List.replicate (s.length - (unescape s).length) (0 : UInt8)).length =
      s.length := by
    rw [List.length_append, List.length_replicate]
    omega
  have hdata' : v'.1 = v.1.take m.offset.toNat ++
      ((unescape s ++ List.replicate (s.length - (unescape s).length) 0) ++ rest) := by
    rw [hv']
    simp only [List.append_assoc]
  rw [hpre] at hrun
  refine ⟨v', _, hrun, ?_, fun k hk => ?_⟩
  · have hslice := slice_of_split hdata hpre hlen
    rw [slice_of_split hdata' hpre (by rw [hsame]; exact hlen), unescaped, htext, strlen, htext,
      hsame, hslice, List.drop_left]
  · refine outside_of_split hdata hdata' hsame.symm ?_
    rw [hpre]
    omega

/-- A text that runs out of the member is followed out of it. -/
theorem delEscapeStr_outside {data : Block n} (hnul : (0 : UInt8) ∉ data.1) {datalength i : Nat}
    (hlen : n < datalength) (hin : i ≤ n) : delEscapeStr data 0 datalength i = none := by
  induction hleft : datalength - i using Nat.strongRecOn generalizing i with
  | ind left ih =>
    subst hleft
    rw [delEscapeStr]
    by_cases hi : i < n
    · have hlt : i < data.1.length := by rw [data.2]; exact hi
      have hnext : delEscapeStr data 0 datalength (i + 1) = none := ih _ (by omega) (by omega) rfl
      have hzero : data.1[i] ≠ 0 := fun h => hnul (h ▸ List.getElem_mem hlt)
      have hread : data.read (0 + i) (datalength - i) = none :=
        Block.read_eq_none_iff.mpr (by omega)
      rw [if_pos (by omega), Nat.zero_add, List.getElem?_eq_getElem hlt]
      dsimp only
      rw [if_neg hzero, hnext]
      rw [Nat.zero_add] at hread
      rw [hread]
      simp only [ite_self]
    · have hnone : data.1[0 + i]? = none := by
        rw [List.getElem?_eq_none_iff, data.2]
        omega
      rw [if_pos (by omega), hnone]

theorem staysInside_iff (h : Fits n m) : StaysInside v m ↔
    PlainHead v m ∧ (TextEnds v m ∨ AtEnd v m) := by
  have hslice := slice_length h v
  rw [← strlen_le_iff h]
  constructor
  · rintro ⟨res, hrun⟩
    constructor
    · intro c hc
      by_contra hspecial
      rw [Bool.not_eq_false] at hspecial
      obtain ⟨rest, hrest⟩ : ∃ rest, slice v m = c :: rest := by
        cases hs : slice v m with
        | nil =>
          rw [hs] at hc
          cases hc
        | cons d rest =>
          rw [hs] at hc
          cases hc
          exact ⟨rest, rfl⟩
      have hzero := special_ne_zero hspecial
      have hpos : 0 < strlen (v.1.drop m.offset.toNat) := by
        rw [slice_append, hrest, List.cons_append, strlen, cstr, if_neg hzero]
        exact Nat.succ_pos _
      have hfirst : (Block.ofBytes (slice v m)).1[0 + 0]? = some c := by
        rw [Block.ofBytes, hrest]
        rfl
      rw [delEscapeStr, if_pos hpos, hfirst] at hrun
      dsimp only at hrun
      rw [if_neg hzero, if_pos hspecial, if_pos rfl] at hrun
      cases hrun
    · by_contra hlong
      have hnul : (0 : UInt8) ∉ slice v m := fun hnul =>
        hlong (strlen_le_of_ends h (Or.inl hnul)).1
      rw [delEscapeStr_outside hnul (by omega) (Nat.zero_le _)] at hrun
      cases hrun
  · rintro ⟨hhead, hlen⟩
    have htext := cstr_slice hlen
    obtain ⟨rest, hrest⟩ := cstr_isPrefix (slice v m)
    have hdata : (Block.ofBytes (slice v m)).1 = [] ++ (cstr (slice v m) ++ rest) := hrest.symm
    obtain ⟨data', hrun, -⟩ := delEscapeStr_eq (nul_not_mem_cstr _)
      (fun c hc hspecial => absurd hspecial (Bool.eq_false_iff.mp (hhead c (head?_cstr hc)))) hdata
    rw [htext] at hrun
    exact ⟨_, hrun⟩

theorem Fits.int (h : Fits n m) :
    m.offset = (m.offset.toNat : Int) ∧ m.size = (m.size.toNat : Int) :=
  ⟨(Int.toNat_of_nonneg h.offset).symm, (Int.toNat_of_nonneg h.size).symm⟩

/-- What another member finds after one text was changed. -/
theorem keeps_member (h : Fits n m) (h' : Fits n m') (hapart : Apart m m')
    (hstring : m.type = .string) (hslice : slice v' m = unescaped (slice v m))
    (hout : ∀ k : Nat, k < m.offset.toNat ∨ m.offset.toNat + m.size.toNat ≤ k →
      v'.1[k]? = v.1[k]?) :
    slice v' m' = slice v m' ∧ (TextEnds v m' → TextEnds v' m') := by
  obtain ⟨hoff, hsize⟩ := h.int
  obtain ⟨hoff', hsize'⟩ := h'.int
  have hsep := hapart (Or.inl hstring)
  have hsame : slice v' m' = slice v m' := by
    apply List.ext_getElem?
    intro k
    rcases Nat.lt_or_ge k m'.size.toNat with hk | hk
    · rw [slice_getElem? v' hk, slice_getElem? v hk]
      exact hout _ (by omega)
    · rw [List.getElem?_eq_none (by rw [slice_length h' v']; exact hk),
        List.getElem?_eq_none (by rw [slice_length h' v]; exact hk)]
  refine ⟨hsame, fun hends => ?_⟩
  rw [TextEnds, hsame]
  refine hends.imp id fun hzero => ?_
  by_cases hk : m'.offset.toNat + m'.size.toNat < m.offset.toNat ∨
      m.offset.toNat + m.size.toNat ≤ m'.offset.toNat + m'.size.toNat
  · rw [hout _ hk]
    exact hzero
  -- The byte behind the other text lies in the changed one, where a zero byte stays.
  · obtain ⟨k, hk, hin⟩ : ∃ k, m'.offset.toNat + m'.size.toNat = m.offset.toNat + k ∧
        k < m.size.toNat := ⟨m'.offset.toNat + m'.size.toNat - m.offset.toNat, by omega, by omega⟩
    rw [hk, ← slice_getElem? v hin] at hzero
    rw [hk, ← slice_getElem? v' hin, hslice]
    exact unescaped_zero hzero

/-- A member apart from all texts keeps its bytes. -/
theorem Unescaped.apart {desc : List ChainMember} (hu : Unescaped desc v v') (h : Fits n m)
    (hapart : ∀ m' ∈ desc, m'.type = .string →
      m.offset + m.size ≤ m'.offset ∨ m'.offset + m'.size ≤ m.offset) :
    slice v' m = slice v m := by
  obtain ⟨hoff, hsize⟩ := h.int
  apply List.ext_getElem?
  intro k
  rcases Nat.lt_or_ge k m.size.toNat with hk | hk
  · rw [slice_getElem? v' hk, slice_getElem? v hk]
    refine hu.outside _ fun m' hm' hstring => ?_
    have hsep := hapart m' hm' hstring
    omega
  · rw [List.getElem?_eq_none (by rw [slice_length h v']; exact hk),
      List.getElem?_eq_none (by rw [slice_length h v]; exact hk)]

theorem TextEnds.not_atEnd (h : TextEnds v m) : ¬ AtEnd v m := by
  rintro ⟨hnul, hend⟩
  rcases h with h | h
  · exact hnul h
  · have hlt := (List.getElem?_eq_some_iff.mp h).1
    rw [v.2] at hlt
    omega

/-- The loop runs to its end, or meets a text that has none. -/
theorem unescapeMembers_cases {ms : List ChainMember} (hfits : ∀ m ∈ ms, Fits n m)
    (hapart : ms.Pairwise Apart) {v : Block n}
    (hin : ∀ m ∈ ms, m.type = .string → PlainHead v m ∧ (TextEnds v m ∨ AtEnd v m)) :
    (∃ v', unescapeMembers ms v = some v' ∧ Unescaped ms v v' ∧
      ∀ m ∈ ms, m.type = .string → ¬ AtEnd v m) ∨
    (unescapeMembers ms v = none ∧ ∃ m ∈ ms, m.type = .string ∧ AtEnd v m) := by
  induction ms generalizing v with
  | nil =>
    exact Or.inl ⟨v, rfl, ⟨fun m hm => absurd hm List.not_mem_nil, fun _ _ => rfl⟩,
      fun m hm => absurd hm List.not_mem_nil⟩
  | cons m ms ih =>
    obtain ⟨hfit, hrestFits⟩ := List.forall_mem_cons.mp hfits
    obtain ⟨hfirst, hrest⟩ := List.pairwise_cons.mp hapart
    obtain ⟨hm, hms⟩ := List.forall_mem_cons.mp hin
    by_cases hstring : m.type = .string
    swap
    · rw [unescapeMembers, if_neg hstring]
      rcases ih hrestFits hrest hms with ⟨v', hrun, hu, hnot⟩ | ⟨hnone, m', hm', hend⟩
      · refine Or.inl ⟨v', hrun, ⟨?_, fun k hk => ?_⟩, ?_⟩
        · exact List.forall_mem_cons.mpr ⟨fun h => absurd h hstring, hu.strings⟩
        · exact hu.outside k fun m' hm' => hk m' (List.mem_cons_of_mem _ hm')
        · exact List.forall_mem_cons.mpr ⟨fun h => absurd h hstring, hnot⟩
      · exact Or.inr ⟨hnone, m', List.mem_cons_of_mem _ hm', hend⟩
    rw [unescapeMembers, if_pos hstring]
    rcases hm hstring with ⟨hhead, hends | hend⟩
    · obtain ⟨v₁, len, hrun₁, hslice, hout⟩ := delEscapeStr_member hfit hends hhead
      rw [if_pos ⟨hfit.offset, (strlen_le_of_ends hfit hends).2⟩, hrun₁]
      have hkeeps : ∀ m' ∈ ms, slice v₁ m' = slice v m' ∧ (TextEnds v m' → TextEnds v₁ m') :=
        fun m' hm' => keeps_member hfit (hrestFits m' hm') (hfirst m' hm') hstring hslice hout
      have hatEnd : ∀ m' ∈ ms, AtEnd v₁ m' ↔ AtEnd v m' := by
        intro m' hm'
        rw [AtEnd, AtEnd, (hkeeps m' hm').1]
      have hin₁ : ∀ m' ∈ ms, m'.type = .string →
          PlainHead v₁ m' ∧ (TextEnds v₁ m' ∨ AtEnd v₁ m') := by
        intro m' hm' hstring'
        obtain ⟨hhead', hends'⟩ := hms m' hm' hstring'
        rw [PlainHead, (hkeeps m' hm').1]
        exact ⟨hhead', hends'.imp (hkeeps m' hm').2 (hatEnd m' hm').mpr⟩
      rcases ih hrestFits hrest hin₁ with ⟨v', hrun, hu, hnot⟩ | ⟨hnone, m', hm', hstring', hend⟩
      · refine Or.inl ⟨v', hrun, ⟨?_, fun k hk => ?_⟩, ?_⟩
        · refine List.forall_mem_cons.mpr ⟨fun _ => ?_, fun m' hm' hstring' => ?_⟩
          · rw [hu.apart hfit fun m' hm' _ => hfirst m' hm' (Or.inl hstring), hslice]
          · rw [hu.strings m' hm' hstring', (hkeeps m' hm').1]
        · obtain ⟨hoff, hsize⟩ := hfit.int
          have hself := hk m List.mem_cons_self hstring
          rw [hu.outside k fun m' hm' => hk m' (List.mem_cons_of_mem _ hm')]
          exact hout k (by omega)
        · refine List.forall_mem_cons.mpr ⟨fun _ => hends.not_atEnd, fun m' hm' hstring' => ?_⟩
          rw [← hatEnd m' hm']
          exact hnot m' hm' hstring'
      · exact Or.inr ⟨hnone, m', List.mem_cons_of_mem _ hm', hstring', (hatEnd m' hm').mp hend⟩
    · have hnone : (0 : UInt8) ∉ v.1.drop m.offset.toNat := by
        rw [slice_append, List.drop_eq_nil_of_le (by rw [v.2]; exact hend.2), List.append_nil]
        exact hend.1
      rw [if_neg fun h => hnone h.2]
      exact Or.inr ⟨rfl, m, List.mem_cons_self, hstring, hend⟩

variable {T : RecordTables} {i : Nat} {desc : List ChainMember} {wlan : Option (Nat × Int)} {id : Int}

theorem mibChainUpdate_eq (hi : i < T.chainTable.length)
    (hid : Args.chainId ⟨id, [], wlan⟩ = some ((T.chainEntry i).id : Int))
    (hdesc : (T.chainEntry i).recordDesc = some desc) (gDelEscapechar : Bool)
    (ptr : Record T.toTables i) (recordNum : UInt32) :
    mibChainUpdate T.toTables gDelEscapechar wlan id ptr recordNum =
      if T.shmSize ≤ (T.chainEntry i).perRecordSize then some none
      else (if gDelEscapechar then unescapeMembers desc ptr else some ptr).map fun v' =>
        some (.record (T.chainEntry i).id (T.chainEntry i).perRecordSize
          (.update recordNum v'.1)) := by
  have hindex := mib2tblId_entry hi
  have hread : ∀ v' : Record T.toTables i,
      v'.read 0 (T.chainEntry i).perRecordSize = some v' := fun v' =>
    Block.read_middle (show v'.1 = [] ++ v'.1 ++ [] by simp) rfl v'.2
  cases gDelEscapechar with
  | false =>
    simp only [mibChainUpdate, hid, hindex, Bool.false_eq_true, if_false, hread, Option.map_some]
  | true =>
    have hget : mibChainGetRecordDesc T.toTables wlan id = some (some desc) := by
      simp only [mibChainGetRecordDesc, hid, hindex, hdesc, Option.map_some]
    simp only [mibChainUpdate, hget, hid, hindex, if_true]
    split
    · rfl
    · cases unescapeMembers desc ptr with
      | none => rfl
      | some v' => simp only [hread, Option.map_some]

/-- What an update is to send: the record with its texts unescaped, where the work on a text
stays in its member. -/
def SendsUnescaped (gDelEscapechar : Bool) (wlan : Option (Nat × Int)) (id : Int)
    (desc : List ChainMember) (ptr : Record T.toTables i) (recordNum : UInt32) : Prop :=
  (∃ v' : Record T.toTables i, mibChainUpdate T.toTables gDelEscapechar wlan id ptr recordNum =
      some (some (.record (T.chainEntry i).id (T.chainEntry i).perRecordSize
        (.update recordNum v'.1))) ∧
      Unescaped desc ptr v' ∧ ∀ m ∈ desc, m.type ≠ .string → slice v' m = slice ptr m) ∧
    (gDelEscapechar = true → ∀ m ∈ desc, m.type = .string → StaysInside ptr m)

/-- An update sends the unescaped record exactly if the record fits into the shared memory and,
with the escapes to be taken out, each text ends with its member and does not begin with a
special character; else, if there is nothing to be taken out. -/
theorem sends_unescaped_iff (hi : i < T.chainTable.length)
    (hid : Args.chainId ⟨id, [], wlan⟩ = some ((T.chainEntry i).id : Int))
    (hdesc : (T.chainEntry i).recordDesc = some desc) (gDelEscapechar : Bool)
    (ptr : Record T.toTables i) (recordNum : UInt32) :
    SendsUnescaped gDelEscapechar wlan id desc ptr recordNum ↔
      (T.chainEntry i).perRecordSize < T.shmSize ∧ ∀ m ∈ desc, m.type = .string →
        if gDelEscapechar then TextEnds ptr m ∧ PlainHead ptr m
        else unescaped (slice ptr m) = slice ptr m := by
  have hmem := chainEntry_mem hi
  have hfits : ∀ m ∈ desc, Fits (T.chainEntry i).perRecordSize m :=
    fits_of_desc (T.recordDesc_fits _ hmem desc (by rw [hdesc]; rfl))
  have hapart : desc.Pairwise Apart := T.members_apart _ hmem desc (by rw [hdesc]; rfl)
  rw [SendsUnescaped, mibChainUpdate_eq hi hid hdesc]
  by_cases hsize : T.shmSize ≤ (T.chainEntry i).perRecordSize
  · rw [if_pos hsize]
    constructor
    · rintro ⟨⟨v', hrun, -⟩, -⟩
      cases hrun
    · rintro ⟨hlt, -⟩
      omega
  have hlt : (T.chainEntry i).perRecordSize < T.shmSize := Nat.lt_of_not_le hsize
  rw [if_neg hsize, and_iff_right hlt]
  cases gDelEscapechar with
  | false =>
    simp only [Bool.false_eq_true, if_false, false_implies, and_true, Option.map_some]
    constructor
    · rintro ⟨v', hrun, hu, -⟩ m hm hstring
      have hv' : ptr.1 = v'.1 := by
        injection Option.some.inj (Option.some.inj hrun) with _ _ hop
        injection hop
      rw [← hu.strings m hm hstring, Subtype.ext hv']
    · intro hsame
      exact ⟨ptr, rfl, ⟨fun m hm hstring => (hsame m hm hstring).symm, fun _ _ => rfl⟩,
        fun _ _ _ => rfl⟩
  | true =>
    simp only [if_true, true_implies]
    have hin : (∀ m ∈ desc, m.type = .string → StaysInside ptr m) ↔
        ∀ m ∈ desc, m.type = .string → PlainHead ptr m ∧ (TextEnds ptr m ∨ AtEnd ptr m) :=
      forall₃_congr fun m hm _ => staysInside_iff (hfits m hm)
    rw [hin]
    constructor
    · rintro ⟨⟨v', hrun, -⟩, hinside⟩ m hm hstring
      rcases unescapeMembers_cases hfits hapart hinside with ⟨w, -, -, hnot⟩ | ⟨hnone, -⟩
      · exact ⟨(hinside m hm hstring).2.resolve_right (hnot m hm hstring),
          (hinside m hm hstring).1⟩
      · rw [hnone] at hrun
        cases hrun
    · intro hends
      have hinside : ∀ m ∈ desc, m.type = .string →
          PlainHead ptr m ∧ (TextEnds ptr m ∨ AtEnd ptr m) := fun m hm hstring =>
        ⟨(hends m hm hstring).2, Or.inl (hends m hm hstring).1⟩
      rcases unescapeMembers_cases hfits hapart hinside with
        ⟨v', hrun, hu, -⟩ | ⟨-, m, hm, hstring, hend⟩
      · refine ⟨⟨v', by rw [hrun]; rfl, hu, fun m hm hother => ?_⟩, hinside⟩
        refine hu.apart (hfits m hm) fun m' hm' hstring => ?_
        have hne : m ≠ m' := fun h => hother (h ▸ hstring)
        exact hapart.forall hm hm' hne (Or.inr hstring)
      · exact absurd hend (hends m hm hstring).1.not_atEnd

/-- `KEYWD_FILTER_DESC`. -/
def keywdFilterDesc : List ChainMember := [.mk (ascii "KEYWD") .string 0 20 none]

def keywdTables : RecordTables where
  toXmlTables := { sampleXmlTables with
    chainTable := [
      { id := 3030, mibType := .current, name := ascii "KEYWD_FILTER_TBL", perRecordSize := 20,
        tableSize := 8, defaultValue := none, defaultSize := 0,
        recordDesc := some keywdFilterDesc }]
    chainTable_ne := by decide
    chainTable_id := by decide
    chainTable_nodup := by decide
    chainTable_size := by decide
    chainTable_default := by decide
    chainTable_defaultSize := by decide
    recordDesc_sums := by simp [keywdFilterDesc, SumsFit, MemberSumsFit, ChainMember.size]
    chainName_unique := by decide
    recordDesc_fits := by simp [keywdFilterDesc, DescFits, MemberFits, TypeT.width] }
  members_apart := by simp [keywdFilterDesc]

/-- A keyword of a few bytes. -/
def keywd (text : Bytes) (h : text.length ≤ 20) : Record keywdTables.toTables 0 :=
  ⟨text ++ List.replicate (20 - text.length) 0, by
    rw [List.length_append, List.length_replicate, Nat.add_sub_cancel' h]
    rfl⟩

theorem escaped_keyword_sent :
    SendsUnescaped true none 3030 keywdFilterDesc (keywd (ascii "it\\'s") (by decide)) 0 := by
  refine (sends_unescaped_iff (T := keywdTables) (i := 0) (by decide) rfl rfl true _ 0).mpr
    ⟨by decide, fun m hm _ => ?_⟩
  cases List.mem_singleton.mp hm
  exact ⟨Or.inl (by decide), by
    intro c hc
    cases hc
    decide⟩

/-- A keyword with a quotation mark in front: the byte in front of the record is looked at. -/
theorem quoted_keyword_outside :
    ¬ ∀ (ptr : Record keywdTables.toTables 0) (recordNum : UInt32),
      SendsUnescaped true none 3030 keywdFilterDesc ptr recordNum := by
  intro hclaim
  obtain ⟨-, hinside⟩ := hclaim (keywd (ascii "'s") (by decide)) 0
  have hstays := hinside rfl _ List.mem_cons_self rfl
  rw [staysInside_iff ⟨by decide, by decide, by decide⟩] at hstays
  exact absurd (hstays.1 39 rfl) (by decide)

end RecordEscapes
