import Mathlib.Data.List.Pairwise
import BoaGateway.FormReading
import BoaGateway.FormValues

/-!
# From a form field to a setting

When the text that `boaGetVar` returns is the value with its special characters escaped, and
when that text ends up in a setting as the value that was typed.
-/

namespace FormStorage

open ByteBlocks Texts EscapeText CgiParams FormValues MibTypes MibContent MibTable

variable {T : Tables}

theorem copyValue_length_le (maxlen : Nat) (s : Bytes) : (copyValue maxlen s).length ≤ maxlen := by
  fun_induction copyValue maxlen s with
  | case1 | case2 | case3 => exact Nat.zero_le _
  | case4 y c _ _ _ _ _ ih | case5 y c _ _ _ _ _ ih | case6 y c _ _ _ ih =>
    exact Nat.succ_le_succ ih

theorem advLoop_length_le {maxlen : Nat} {param start v : Bytes} {index : Int} {count : Nat}
    (h : advLoop maxlen param index count start = some (some v)) : v.length ≤ maxlen := by
  fun_induction advLoop maxlen param index count start with
  | case1 | case2 | case3 => cases h
  | case4 count start _ value _ hindex =>
    cases h
    exact copyValue_length_le maxlen value
  | case5 => cases h
  | case6 count start _ value rest _ hindex =>
    cases h
    exact copyValue_length_le maxlen value
  | case7 count start _ value rest _ _ ih => exact ih h
  | case8 => cases h
  | case9 count start _ behind _ _ ih => exact ih h

theorem multipartLoop_length_lt {maxlen : Nat} {boundary param start v : Bytes}
    (h : multipartLoop maxlen boundary param start = some (some v)) : v.length < maxlen := by
  fun_induction multipartLoop maxlen boundary param start with
  | case1 | case2 | case3 | case5 | case7 | case8 => cases h
  | case4 start _ _ part _ _ _ ih => exact ih h
  | case6 start _ _ part _ headers body _ _ ih => exact ih h
  | case9 start _ _ part _ headers body _ _ value _ _ _ hfit =>
    cases h
    exact Nat.lt_of_le_of_lt (List.length_take_le _ _) hfit
  | case10 => cases h

/-- A value has room in `query_temp_var`, with its zero byte where it gets one. -/
theorem getcgiparam_fits {req : FormRequest} {s var v : Bytes} {index : Int}
    (h : getcgiparam req s var index = some (some v)) :
    if req.isMultipart then v.length < maxQueryTempValSize else v.length ≤ maxQueryTempValSize := by
  rw [getcgiparam] at h
  split at h <;> rename_i hmultipart
  · rw [if_pos hmultipart]
    rw [getcgiparamMultipart] at h
    split at h
    · cases h
    split at h
    · cases h
    dsimp only at h
    split at h
    · cases h
    · exact multipartLoop_length_lt h
  · rw [if_neg hmultipart]
    rw [getcgiparamAdv] at h
    split at h
    · cases h
    · exact advLoop_length_le h

/-- What the buffers need: behind the value stands a zero byte in `query_temp_var`, and the
escaped value fits into `buf_tmp`. -/
def HasRoom (req : FormRequest) (queryTempVar : Block maxQueryTempValSize) (v : Bytes) : Prop :=
  (req.isMultipart = true ∨ (0 : UInt8) ∈ queryTempVar.1.drop v.length) ∧
    (escape v).length ≤ maxQueryTempValSize

theorem leaveValue_eq {req : FormRequest} {s var v : Bytes} {index : Int}
    (h : getcgiparam req s var index = some (some v))
    (queryTempVar : Block maxQueryTempValSize) :
    ∃ after : Block maxQueryTempValSize, ∃ rest,
      leaveValue req v queryTempVar = some after ∧ after.1 = v ++ rest ∧
        ((0 : UInt8) ∈ rest ↔
          req.isMultipart = true ∨ (0 : UInt8) ∈ queryTempVar.1.drop v.length) := by
  have hfits := getcgiparam_fits h
  cases hmultipart : req.isMultipart with
  | true =>
    rw [hmultipart, if_pos rfl] at hfits
    obtain ⟨after, hwrite, hafter⟩ : ∃ after : Block maxQueryTempValSize,
        queryTempVar.write 0 (v ++ [0]) = some after ∧
          after.1 = [] ++ (v ++ [0]) ++ queryTempVar.1.drop (v ++ [0]).length :=
      Block.write_after (List.nil_append _).symm rfl (by
        rw [queryTempVar.2, List.length_append]
        exact hfits)
    refine ⟨after, 0 :: queryTempVar.1.drop (v ++ [0]).length, ?_, by simp [hafter], by simp⟩
    rw [leaveValue, hmultipart, if_pos rfl, hwrite]
  | false =>
    rw [hmultipart, if_neg (by decide)] at hfits
    obtain ⟨after, hwrite, hafter⟩ : ∃ after : Block maxQueryTempValSize,
        queryTempVar.write 0 v = some after ∧
          after.1 = [] ++ v ++ queryTempVar.1.drop v.length :=
      Block.write_after (List.nil_append _).symm rfl (by rw [queryTempVar.2]; exact hfits)
    refine ⟨after, queryTempVar.1.drop v.length, ?_, by simp [hafter], by simp⟩
    rw [leaveValue, hmultipart, if_neg (by decide), hwrite]

theorem strncpy_self {v : Bytes} (hv : (0 : UInt8) ∉ v) : strncpy v v.length = v := by
  rw [strncpy, strlen, cstr_eq_self hv, List.take_length, Nat.sub_self, List.replicate_zero,
    List.append_nil]

/-- A copy of the whole buffer starts with the padded copy of what stands in front. -/
theorem strncpy_front (v rest : Bytes) {n : Nat} (hn : v.length ≤ n) :
    strncpy v v.length <+: strncpy (v ++ rest) n := by
  by_cases hv : (0 : UInt8) ∈ v
  · have hlt := strlen_lt_of_nul hv
    rw [strncpy, strncpy, strlen, strlen, cstr_append_of_nul hv,
      List.take_of_length_le hlt.le, List.take_of_length_le (hlt.le.trans hn),
      List.prefix_append_right_inj, List.prefix_replicate_iff, List.length_replicate]
    exact ⟨Nat.sub_le_sub_right hn _, rfl⟩
  · rw [strncpy_self hv, strncpy, cstr_append hv]
    refine List.IsPrefix.trans ?_ (List.prefix_append _ _)
    rw [List.prefix_take_iff]
    exact ⟨List.prefix_append v (cstr rest), hn⟩

/-- The buffer is escaped as far as the value goes, whatever stands behind it. -/
theorem escapeValue_text {after : Block maxQueryTempValSize} {v rest : Bytes}
    (hafter : after.1 = v ++ rest) :
    escapeValue after (some v.length) =
      if (0 : UInt8) ∈ v ++ rest ∧ (escape (strncpy v v.length)).length ≤ maxQueryTempValSize then
        some (some (escape (strncpy v v.length)))
      else none := by
  have hshort : v.length ≤ maxQueryTempValSize := by
    have hlen := after.2
    rw [hafter, List.length_append] at hlen
    omega
  rw [escapeValue]
  by_cases hnul : (0 : UInt8) ∈ v ++ rest
  · rw [if_pos (hafter ▸ hnul)]
    obtain ⟨tail, htail⟩ := strncpy_front v rest hshort
    rw [← hafter] at htail
    have hbufTmp : (⟨strncpy after.1 maxQueryTempValSize, strncpy_length _ _⟩ :
        Block maxQueryTempValSize).1 = [] ++ (strncpy v v.length ++ tail) := htail.symm
    have hrun := addEscapeStr_eq hbufTmp
    rw [List.nil_append, List.nil_append, List.length_nil, strncpy_length] at hrun
    by_cases hroom : (escape (strncpy v v.length)).length ≤ maxQueryTempValSize
    · obtain ⟨data', hescape, post, hpost⟩ := hrun.1 hroom
      rw [if_pos ⟨hnul, hroom⟩]
      have hread : data'.read 0 (escape (strncpy v v.length)).length =
          some ⟨escape (strncpy v v.length), rfl⟩ :=
        Block.read_middle (by rw [List.nil_append, hpost]) rfl rfl
      simp only [hescape, hread]
      rfl
    · rw [if_neg fun h => hroom h.2]
      simp only [hrun.2 (Nat.lt_of_not_le hroom)]
  · rw [if_neg (hafter ▸ hnul), if_neg fun h => hnul h.1]

theorem escapeValue_eq {after : Block maxQueryTempValSize} {v rest : Bytes}
    (hv : (0 : UInt8) ∉ v) (hafter : after.1 = v ++ rest) :
    escapeValue after (some v.length) =
      if (0 : UInt8) ∈ rest ∧ (escape v).length ≤ maxQueryTempValSize then some (some (escape v))
      else none := by
  rw [escapeValue_text hafter, strncpy_self hv]
  simp only [List.mem_append, or_iff_right hv]

theorem boaGetVarAdv_returns_iff {req : FormRequest} {s var v : Bytes} {index : Int}
    {queryTempVar : Block maxQueryTempValSize} (hs : source req = .text s)
    (h : getcgiparam req s var index = some (some v)) (hv : (0 : UInt8) ∉ v) :
    (∃ after, boaGetVarAdv req var index queryTempVar = some (some (escape v), after)) ↔
      HasRoom req queryTempVar v := by
  obtain ⟨after, rest, hleave, hafter, hrest⟩ := leaveValue_eq h queryTempVar
  rw [boaGetVarAdv]
  simp only [hs, h, hleave, escapeValue_eq hv hafter]
  rw [HasRoom, ← hrest]
  split
  · rename_i hroom
    exact iff_of_true ⟨after, rfl⟩ hroom
  · rename_i hroom
    refine iff_of_false ?_ hroom
    rintro ⟨_, ⟨⟩⟩

/-- A text that fits becomes the value of a string. -/
theorem mibSet_string {n : Nat} {e : MibTableEntry} (he : e ∈ T.mibTable)
    (hstring : e.type.isString = true) (r : Ram T) {value : Block n} {text : Bytes}
    (hcopy : strcpyFrom value 0 = some (text ++ [0])) (htext : (0 : UInt8) ∉ text)
    (hfit : text.length < e.size) :
    ∃ r', mibSet r e.id value = some (true, r') ∧ mibGet r' e.id = some (some (text ++ [0])) := by
  have hinfo : mibInfo T (e.id : Int) = e := mibInfo_eq he rfl
  obtain ⟨m, hm, hin⟩ : ∃ m, valueTbl e.mibType = some m ∧
      e.offset + e.footprint ≤ T.tblSize m := by
    have hfits := T.mibTable_fits e he
    rcases T.mibTable_type e he with ht | ht | ht <;> rw [ht] at hfits ⊢
    · exact ⟨.cs, rfl, hfits⟩
    · exact ⟨.hs, rfl, hfits⟩
    · exact ⟨.rs, rfl, hfits⟩
  have hsize : e.size ≤ e.footprint := le_max_left _ _
  have hlen : (text ++ [0]).length = text.length + 1 := List.length_append
  obtain ⟨b, hwrite, hb⟩ : ∃ b, (r.tbl m).write e.offset (text ++ [0]) = some b ∧
      b.1 = (r.tbl m).1.take e.offset ++ (text ++ [0]) ++
        ((r.tbl m).1.drop e.offset).drop (text ++ [0]).length := by
    refine Block.write_after (List.take_append_drop e.offset (r.tbl m).1).symm ?_ ?_
    · rw [List.length_take, (r.tbl m).2]
      omega
    · rw [List.length_drop, (r.tbl m).2]
      omega
  refine ⟨Ram.setTbl r m b, ?_, ?_⟩
  · rw [mibSet, hinfo, hm]
    dsimp only
    rw [setValue, if_pos hstring, hcopy]
    dsimp only
    rw [if_neg (by omega), storeAt, hwrite]
    rfl
  · have hdrop : b.1.drop e.offset =
        text ++ 0 :: ((r.tbl m).1.drop e.offset).drop (text ++ [0]).length := by
      have hpre : ((r.tbl m).1.take e.offset).length = e.offset := by
        rw [List.length_take, (r.tbl m).2]
        omega
      rw [hb, List.append_assoc]
      nth_rewrite 1 [← hpre]
      rw [List.drop_left, List.append_assoc, List.singleton_append]
    have htbl : (Ram.setTbl r m b).tbl m = b := Config.tbl_setTbl r.toConfig m b
    rw [mibGet, hinfo, hm]
    dsimp only
    rw [htbl, getValue, if_pos hstring, strcpyFrom, hdrop, if_pos (by simp),
      cstr_nul_free htext]
    rfl

/-- A text that does not fit is refused, or has no end. -/
theorem mibSet_long {n : Nat} {e : MibTableEntry} (he : e ∈ T.mibTable)
    (hstring : e.type.isString = true) {r r' : Ram T} {value : Block n} {s rest : Bytes}
    (hvalue : value.1 = s ++ rest) (hs : (0 : UInt8) ∉ s) (hlong : e.size ≤ s.length) :
    mibSet r e.id value ≠ some (true, r') := by
  intro h
  rw [mibSet, mibInfo_eq he rfl] at h
  split at h
  · cases h
  rw [setValue, if_pos hstring] at h
  split at h
  · cases h
  rename_i text hcopy
  rw [strcpyFrom, List.drop_zero, hvalue, cstr_append hs] at hcopy
  split at hcopy
  · cases hcopy
    rw [if_pos (by simp only [List.length_append, List.length_singleton]; omega)] at h
    cases h
  · cases hcopy

/-- The client hands the text to the server, which makes it the value of an entry. -/
def Stores (T : Tables) (e : MibTableEntry) (value v : Bytes) : Prop :=
  ∀ (r : Ram T) (mtext : Block T.maxSendSize), ∃ mtext' r',
    mibSetText e value mtext = some mtext' ∧ mibSet r e.id mtext' = some (true, r') ∧
      mibGet r' e.id = some (some (v ++ [0]))

/-- The text of a message that starts with a string. -/
theorem strcpyFrom_message {n : Nat} {mtext mtext' : Block n} {data s : Bytes}
    (hwrite : mtext.write 0 data = some mtext') (hs : (0 : UInt8) ∉ s)
    (hdata : s ++ [0] <+: data) : strcpyFrom mtext' 0 = some (s ++ [0]) := by
  obtain ⟨-, hval⟩ := Block.write_eq_some_iff.mp hwrite
  obtain ⟨more, rfl⟩ := hdata
  have hsplit : mtext'.1 = s ++ 0 :: (more ++ mtext.1.drop (0 + (s ++ [0] ++ more).length)) := by
    rw [hval]
    simp
  rw [strcpyFrom, List.drop_zero, hsplit, if_pos (by simp), cstr_nul_free hs]

/-- Behind the text stands a zero byte, however many follow. -/
theorem zero_behind (w more : Bytes) (k : Nat) :
    w ++ [0] <+: w ++ (List.replicate k 0 ++ 0 :: more) := by
  cases k with
  | zero => exact ⟨more, by simp⟩
  | succ k => exact ⟨List.replicate k 0 ++ 0 :: more, by simp [List.replicate_succ]⟩

theorem delEscapeCopy_escape {v : Bytes} (hv : (0 : UInt8) ∉ v) :
    ∃ valStr, delEscapeCopy (escape v) = some valStr ∧ v ++ [0] <+: valStr := by
  have hdata : (Block.ofBytes (escape v ++ [0])).1 = ([] ++ []) ++ (escape v ++ 0 :: []) := rfl
  obtain ⟨data', hrun, hdata'⟩ := delEscapeStr_escape hv hdata
  refine ⟨data'.1, ?_, ?_⟩
  · simp only [List.nil_append, List.length_nil] at hrun
    rw [delEscapeCopy, hrun]
    rfl
  · rw [hdata', List.nil_append, List.nil_append]
    exact zero_behind v [] _

/-- `mib_set` takes the escapes out of a string. -/
theorem mibSetText_string {n : Nat} {e : MibTableEntry} {v : Bytes} (more : Bytes)
    (mtext : Block n) (htype : e.type = .string) (hv : (0 : UInt8) ∉ v) (hfit : v.length < e.size)
    (hroom : e.size ≤ n) :
    ∃ mtext', mibSetText e (escape v ++ 0 :: more) mtext = some mtext' ∧
      strcpyFrom mtext' 0 = some (v ++ [0]) := by
  have hcstr : cstr (escape v ++ 0 :: more) = escape v := cstr_nul_free (escape_nul_free hv) more
  have hle := length_le_escape v
  obtain ⟨valStr, hcopy, hstart⟩ := delEscapeCopy_escape hv
  have hlong : v.length < if (escape v).length + 1 < e.size then (escape v).length + 1
      else e.size := by
    split <;> omega
  have hshort : (valStr.take
      (if (escape v).length + 1 < e.size then (escape v).length + 1 else e.size)).length ≤ n := by
    rw [List.length_take]
    split <;> omega
  obtain ⟨mtext', hwrite, -⟩ := Block.write_head mtext hshort
  refine ⟨mtext', ?_, strcpyFrom_message hwrite hv ?_⟩
  · rw [mibSetText, if_pos htype, if_pos (by simp), strlen, hcstr, hcopy]
    exact hwrite
  · rw [List.prefix_take_iff]
    refine ⟨hstart, ?_⟩
    rw [List.length_append, List.length_singleton]
    exact hlong

/-- An encrypted string is copied with its escapes. -/
theorem mibSetText_encrypted {n : Nat} {e : MibTableEntry} {value : Bytes} (mtext : Block n)
    (htype : e.type ≠ .string) (hvalue : e.size ≤ value.length) :
    mibSetText e value mtext = mtext.write 0 (value.take e.size) := by
  rw [mibSetText, if_neg htype, if_pos hvalue]

/-- Only a string of the plain type, or a text without special characters in an object that is
as long as the entry, comes to the server as it was typed. -/
theorem stores_iff {e : MibTableEntry} (he : e ∈ T.mibTable) (hstring : e.type.isString = true)
    {v more : Bytes} (hv : (0 : UInt8) ∉ v) (hfit : v.length < e.size) :
    Stores T e (escape v ++ 0 :: more) v ↔
      e.type = .string ∨
        ((∀ c ∈ v, isSpecial c = false) ∧ e.size ≤ (escape v ++ 0 :: more).length) := by
  have hroom : e.size ≤ T.maxSendSize := (le_max_left _ _).trans (T.mibTable_send e he)
  by_cases htype : e.type = .string
  · refine iff_of_true ?_ (Or.inl htype)
    intro r mtext
    obtain ⟨mtext', htext, hcopy⟩ := mibSetText_string more mtext htype hv hfit hroom
    obtain ⟨r', hset, hget⟩ := mibSet_string he hstring r hcopy hv hfit
    exact ⟨mtext', r', htext, hset, hget⟩
  rw [or_iff_right htype, ← escape_eq_self_iff]
  by_cases hmore : e.size ≤ (escape v ++ 0 :: more).length
  swap
  · refine iff_of_false ?_ fun h => hmore h.2
    intro h
    obtain ⟨mtext', -, htext, -⟩ := h (emptyRam T) (Block.zeros _)
    rw [mibSetText, if_neg htype, if_neg hmore] at htext
    cases htext
  rw [and_iff_left hmore]
  have hfree := escape_nul_free hv
  have hmessage : ∀ mtext : Block T.maxSendSize, ∃ mtext',
      mibSetText e (escape v ++ 0 :: more) mtext = some mtext' ∧
        (escape v ++ 0 :: more).take e.size <+: mtext'.1 := by
    intro mtext
    rw [mibSetText_encrypted mtext htype hmore]
    exact Block.write_head mtext ((List.length_take_le _ _).trans hroom)
  by_cases hlong : (escape v).length < e.size
  · -- the whole text is copied, and becomes the value with its escapes
    have hstored : ∀ (r : Ram T) (mtext : Block T.maxSendSize), ∃ mtext' r',
        mibSetText e (escape v ++ 0 :: more) mtext = some mtext' ∧
          mibSet r e.id mtext' = some (true, r') ∧
            mibGet r' e.id = some (some (escape v ++ [0])) := by
      intro r mtext
      obtain ⟨mtext', htext, -⟩ := hmessage mtext
      have hwrite := htext
      rw [mibSetText_encrypted mtext htype hmore] at hwrite
      have hdata : escape v ++ [0] <+: (escape v ++ 0 :: more).take e.size := by
        rw [List.prefix_take_iff]
        refine ⟨⟨more, by simp⟩, ?_⟩
        rw [List.length_append, List.length_singleton]
        exact hlong
      obtain ⟨r', hset, hget⟩ :=
        mibSet_string he hstring r (strcpyFrom_message hwrite hfree hdata) hfree hlong
      exact ⟨mtext', r', htext, hset, hget⟩
    constructor
    · intro h
      obtain ⟨mtext', r', htext, hset, hget⟩ := h (emptyRam T) (Block.zeros _)
      obtain ⟨mtext₁, r₁, htext₁, hset₁, hget₁⟩ := hstored (emptyRam T) (Block.zeros _)
      cases htext.symm.trans htext₁
      cases hset.symm.trans hset₁
      simpa using hget₁.symm.trans hget
    · intro hplain r mtext
      obtain ⟨mtext', r', htext, hset, hget⟩ := hstored r mtext
      rw [hplain] at hget
      exact ⟨mtext', r', htext, hset, hget⟩
  · refine iff_of_false ?_ ?_
    · intro h
      obtain ⟨mtext', r', htext, hset, -⟩ := h (emptyRam T) (Block.zeros _)
      obtain ⟨mtext₁, htext₁, rest, hrest⟩ := hmessage (Block.zeros _)
      cases htext.symm.trans htext₁
      rw [List.take_append_of_le_length (Nat.le_of_not_lt hlong)] at hrest
      refine mibSet_long he hstring hrest.symm ?_ ?_ hset
      · exact fun hmem => hfree (List.mem_of_mem_take hmem)
      · rw [List.length_take, Nat.min_eq_left (Nat.le_of_not_lt hlong)]
    · intro hplain
      rw [hplain] at hlong
      exact hlong hfit

/-- A member of the record holds a text, with its zero byte. -/
def Holds {n : Nat} (record : Block n) (m : ChainMember) (w : Bytes) : Prop :=
  0 ≤ m.offset ∧ ∃ v : Block m.size.toNat,
    record.read m.offset.toNat m.size.toNat = some v ∧ w ++ [0] <+: v.1

def Apart (m m' : ChainMember) : Prop :=
  m.offset.toNat + m.size.toNat ≤ m'.offset.toNat ∨ m'.offset.toNat + m'.size.toNat ≤ m.offset.toNat

instance : Std.Symm Apart := ⟨fun _ _ h => h.symm⟩

theorem Holds.unique {n : Nat} {record : Block n} {m : ChainMember} {w w' : Bytes}
    (h : Holds record m w) (h' : Holds record m w') (hw : (0 : UInt8) ∉ w)
    (hw' : (0 : UInt8) ∉ w') : w = w' := by
  obtain ⟨-, v, hread, rest, hv⟩ := h
  obtain ⟨-, v', hread', rest', hv'⟩ := h'
  cases hread.symm.trans hread'
  have htext : cstr (w ++ 0 :: rest) = w := cstr_nul_free hw rest
  have htext' : cstr (w' ++ 0 :: rest') = w' := cstr_nul_free hw' rest'
  have hsame : w ++ 0 :: rest = w' ++ 0 :: rest' := by
    simpa using hv.trans hv'.symm
  rw [← htext, hsame, htext']

theorem Holds.of_read {n : Nat} {record record' : Block n} {m : ChainMember} {w : Bytes}
    (h : Holds record m w)
    (hread : record'.read m.offset.toNat m.size.toNat = record.read m.offset.toNat m.size.toNat) :
    Holds record' m w := by
  obtain ⟨hoff, v, hv, hw⟩ := h
  exact ⟨hoff, v, hread.trans hv, hw⟩

/-- The byte in front of the member does not matter to its text. -/
def ClearFront {n : Nat} (record : Block n) (m : ChainMember) : Prop :=
  ∀ c, record.1[m.offset.toNat]? = some c → isSpecial c = true →
    0 < m.offset.toNat ∧ record.1[m.offset.toNat - 1]? ≠ some backslash

/-- A member that holds a text, and what stands in front of it and behind. -/
theorem Holds.split {n : Nat} {record : Block n} {m : ChainMember} {w : Bytes}
    (h : Holds record m w) : ∃ post,
      record.1 = record.1.take m.offset.toNat ++ (w ++ 0 :: post) ∧
        (record.1.take m.offset.toNat).length = m.offset.toNat ∧
        w.length < m.size.toNat ∧ m.offset.toNat + m.size.toNat ≤ n := by
  obtain ⟨-, v, hread, more, hv⟩ := h
  obtain ⟨hin, hval⟩ := Block.read_eq_some_iff.mp hread
  have hlen := v.2
  rw [← hv, List.length_append, List.length_append, List.length_singleton] at hlen
  have htake := List.take_append_drop m.size.toNat (record.1.drop m.offset.toNat)
  rw [← hval, ← hv] at htake
  refine ⟨more ++ (record.1.drop m.offset.toNat).drop m.size.toNat, ?_, ?_, by omega, hin⟩
  · have hafter : w ++ 0 :: (more ++ (record.1.drop m.offset.toNat).drop m.size.toNat) =
        record.1.drop m.offset.toNat := by
      simpa only [List.append_assoc, List.cons_append, List.nil_append] using htake
    rw [hafter, List.take_append_drop]
  · rw [List.length_take, record.2]
    omega

/-- What a round makes of a text of the member. -/
def cleared (w : Bytes) : Bytes :=
  unescape w ++ List.replicate (w.length - (unescape w).length) 0

theorem cleared_length (w : Bytes) : (cleared w).length = w.length := by
  have hle := unescape_length_le w
  rw [cleared, List.length_append, List.length_replicate]
  omega

theorem getLast?_front {n : Nat} (record : Block n) {off : Nat} (hoff : off ≤ n) :
    ((record.1.take off).getLast?.all (· == backslash) = false) ↔
      0 < off ∧ record.1[off - 1]? ≠ some backslash := by
  rw [List.getLast?_take]
  by_cases hzero : off = 0
  · rw [if_pos hzero]
    simp [hzero]
  · have hlt : off - 1 < record.1.length := by
      rw [record.2]
      omega
    rw [if_neg hzero, List.getElem?_eq_getElem hlt, Option.some_or, Option.all_some]
    simp only [beq_eq_false_iff_ne, ne_eq, Option.some.injEq, Nat.pos_of_ne_zero hzero, true_and]

/-- One round writes the text of a string member without its escapes. -/
theorem delEscapeMember_write {n : Nat} {record : Block n} {m : ChainMember} {w : Bytes}
    (htype : m.type = .string) (hw : (0 : UInt8) ∉ w) (h : Holds record m w)
    (hclear : ClearFront record m) :
    ∃ record', delEscapeMember record m = some record' ∧
      record.write m.offset.toNat (cleared w) = some record' := by
  obtain ⟨post, hdata, hpre, -, hin⟩ := h.split
  obtain ⟨record', hrun, hrecord'⟩ := delEscapeStr_eq hw (fun c hc hspecial => by
    rw [getLast?_front record (by omega)]
    refine hclear c ?_ hspecial
    obtain ⟨rest, rfl⟩ := List.head?_eq_some_iff.mp hc
    rw [← hpre]
    exact getElem?_middle hdata) hdata
  rw [hpre] at hrun
  have hdrop : record.1.drop m.offset.toNat = w ++ 0 :: post := by
    nth_rewrite 1 [hdata]
    rw [List.drop_left' hpre]
  refine ⟨record', ?_, ?_⟩
  · rw [delEscapeMember, if_pos htype]
    dsimp only
    rw [if_pos ⟨h.1, by rw [hdrop]; simp⟩, hdrop, strlen, cstr_nul_free hw, hrun]
    rfl
  · rw [Block.write_eq_some_iff, cleared_length, hrecord', cleared, ← List.drop_drop, hdrop,
      List.drop_left]
    have hlen := congrArg List.length hdata
    rw [record.2, List.length_append, hpre, List.length_append] at hlen
    exact ⟨by omega, by simp⟩

theorem delEscapeMember_none {n : Nat} {record : Block n} {m : ChainMember} {w : Bytes}
    (htype : m.type = .string) (hw : (0 : UInt8) ∉ w) (h : Holds record m w)
    (hclear : ¬ ClearFront record m) : delEscapeMember record m = none := by
  obtain ⟨post, hdata, hpre, -, hin⟩ := h.split
  have hdrop : record.1.drop m.offset.toNat = w ++ 0 :: post := by
    nth_rewrite 1 [hdata]
    rw [List.drop_left' hpre]
  rw [ClearFront] at hclear
  push Not at hclear
  obtain ⟨c, hc, hspecial, hfront⟩ := hclear
  have hall : (record.1.take m.offset.toNat).getLast?.all (· == backslash) = true := by
    rw [← Bool.not_eq_false, getLast?_front record (by omega)]
    exact fun hgood => hgood.2 (hfront hgood.1)
  obtain ⟨s, rfl⟩ : ∃ s, w = c :: s := by
    rw [← Nat.add_zero m.offset.toNat, ← List.getElem?_drop, hdrop] at hc
    cases w with
    | nil =>
      cases hc
      exact absurd rfl (special_ne_zero hspecial)
    | cons d s =>
      cases hc
      exact ⟨s, rfl⟩
  have hround := delEscapeStr_first hw hspecial hdata
  rw [if_pos hall, hpre] at hround
  rw [delEscapeMember, if_pos htype]
  dsimp only
  rw [if_pos ⟨h.1, by rw [hdrop]; simp⟩, hdrop, strlen, cstr_nul_free hw, hround]
  rfl

/-- The member then holds the text without its escapes. -/
theorem Holds.of_write {n : Nat} {record record' : Block n} {m : ChainMember} {w : Bytes}
    (h : Holds record m w)
    (hwrite : record.write m.offset.toNat (cleared w) = some record') :
    Holds record' m (unescape w) := by
  obtain ⟨post, hdata, hpre, hlt, hin⟩ := h.split
  obtain ⟨-, hval⟩ := Block.write_eq_some_iff.mp hwrite
  have hrest : record.1.drop (m.offset.toNat + w.length) = 0 :: post := by
    nth_rewrite 1 [hdata]
    rw [← List.drop_drop, List.drop_left' hpre, List.drop_left]
  rw [cleared_length, hrest] at hval
  have hlen := congrArg List.length hdata
  rw [record.2, List.length_append, hpre, List.length_append, List.length_cons] at hlen
  have hsplit : record'.1 = record.1.take m.offset.toNat ++
      (cleared w ++ 0 :: post.take (m.size.toNat - w.length - 1)) ++
        post.drop (m.size.toNat - w.length - 1) := by
    rw [hval, List.append_assoc, List.append_assoc, List.append_assoc, List.cons_append,
      List.take_append_drop]
  have hsize : (cleared w ++ 0 :: post.take (m.size.toNat - w.length - 1)).length =
      m.size.toNat := by
    rw [List.length_append, cleared_length, List.length_cons, List.length_take]
    omega
  refine ⟨h.1, _, Block.read_middle hsplit hpre hsize, ?_⟩
  have htext := zero_behind (unescape w) (post.take (m.size.toNat - w.length - 1))
    (w.length - (unescape w).length)
  rwa [← List.append_assoc] at htext

/-- Other members, and what stands in front of their texts, stay as they were. -/
theorem other_members {n : Nat} {record record' : Block n} {m m' : ChainMember} {w : Bytes}
    (h : Holds record m w) (hwrite : record.write m.offset.toNat (cleared w) = some record')
    (hapart : Apart m m') :
    record'.read m'.offset.toNat m'.size.toNat = record.read m'.offset.toNat m'.size.toNat ∧
      (0 < m'.size.toNat → (ClearFront record' m' ↔ ClearFront record m')) := by
  obtain ⟨post, -, -, hlt, -⟩ := h.split
  constructor
  · apply Block.read_write_disjoint hwrite
    rw [cleared_length]
    rcases hapart with hapart | hapart
    · right
      omega
    · left
      exact hapart
  · intro hsize
    have hbyte : ∀ k, k = m'.offset.toNat ∨ (0 < m'.offset.toNat ∧ k = m'.offset.toNat - 1) →
        record'.1[k]? = record.1[k]? := by
      intro k hk
      rw [Block.write_getElem? hwrite, cleared_length, if_neg]
      rcases hapart with hapart | hapart <;> omega
    rw [ClearFront, ClearFront, hbyte _ (Or.inl rfl)]
    refine forall₃_congr fun c _ _ => and_congr_right fun hpos => ?_
    rw [hbyte _ (Or.inr ⟨hpos, rfl⟩)]

/-- The text of every string member of the record ends in the member. -/
def TextsEnd {n : Nat} (record : Block n) (desc : List ChainMember) : Prop :=
  ∀ m ∈ desc, m.type = .string → ∃ w, (0 : UInt8) ∉ w ∧ Holds record m w

theorem Holds.size_pos {n : Nat} {record : Block n} {m : ChainMember} {w : Bytes}
    (h : Holds record m w) : 0 < m.size.toNat := by
  obtain ⟨-, -, -, hlt, -⟩ := h.split
  omega

/-- The rounds over all members: each text loses its escapes, and nothing else changes. -/
theorem delEscapeMembers_reads {n : Nat} {record : Block n} {desc : List ChainMember}
    (hapart : desc.Pairwise Apart) (hends : TextsEnd record desc)
    (hclear : ∀ m ∈ desc, m.type = .string → ClearFront record m) :
    ∃ record', delEscapeMembers record desc = some record' ∧
      (∀ m ∈ desc, m.type = .string → ∀ w, (0 : UInt8) ∉ w → Holds record m w →
        Holds record' m (unescape w)) ∧
      ∀ m', (∀ m ∈ desc, m.type = .string → Apart m m') →
        record'.read m'.offset.toNat m'.size.toNat =
          record.read m'.offset.toNat m'.size.toNat := by
  induction desc generalizing record with
  | nil => exact ⟨record, rfl, fun m hm => absurd hm List.not_mem_nil, fun _ _ => rfl⟩
  | cons m desc ih =>
    obtain ⟨hhead, htail⟩ := List.pairwise_cons.mp hapart
    obtain ⟨hend, hendsRest⟩ := List.forall_mem_cons.mp hends
    obtain ⟨hfront, hclearRest⟩ := List.forall_mem_cons.mp hclear
    by_cases htype : m.type = .string
    swap
    · obtain ⟨record', hrun, hholds, hframe⟩ := ih htail hendsRest hclearRest
      refine ⟨record', ?_, ?_, fun m' hm' => ?_⟩
      · rw [delEscapeMembers, List.foldlM_cons, delEscapeMember, if_neg htype]
        exact hrun
      · exact List.forall_mem_cons.mpr ⟨fun h => absurd h htype, hholds⟩
      · exact hframe m' fun m₂ hm₂ => hm' m₂ (List.mem_cons_of_mem m hm₂)
    obtain ⟨w, hw, hheld⟩ := hend htype
    obtain ⟨record₁, hrun₁, hwrite⟩ := delEscapeMember_write htype hw hheld (hfront htype)
    have hothers := fun m' (hm' : Apart m m') => other_members hheld hwrite hm'
    have hends₁ : TextsEnd record₁ desc := by
      intro m' hm' htype'
      obtain ⟨w', hw', hheld'⟩ := hendsRest m' hm' htype'
      exact ⟨w', hw', hheld'.of_read (hothers m' (hhead m' hm')).1⟩
    have hclear₁ : ∀ m' ∈ desc, m'.type = .string → ClearFront record₁ m' := by
      intro m' hm' htype'
      obtain ⟨w', -, hheld'⟩ := hendsRest m' hm' htype'
      rw [(hothers m' (hhead m' hm')).2 hheld'.size_pos]
      exact hclearRest m' hm' htype'
    obtain ⟨record', hrun, hholds, hframe⟩ := ih htail hends₁ hclear₁
    refine ⟨record', ?_, List.forall_mem_cons.mpr ⟨fun _ w' hw' hheld' => ?_, ?_⟩,
      fun m' hm' => ?_⟩
    · rw [delEscapeMembers, List.foldlM_cons, hrun₁]
      exact hrun
    · cases hheld.unique hheld' hw hw'
      refine (hheld.of_write hwrite).of_read (hframe m fun m₂ hm₂ _ => ?_)
      exact (hhead m₂ hm₂).symm
    · intro m' hm' htype' w' hw' hheld'
      exact hholds m' hm' htype' w' hw' (hheld'.of_read (hothers m' (hhead m' hm')).1)
    · rw [hframe m' fun m₂ hm₂ => hm' m₂ (List.mem_cons_of_mem m hm₂)]
      exact (hothers m' (hm' m List.mem_cons_self htype)).1

/-- A round whose text begins with a special character looks in front of the member. -/
theorem delEscapeMembers_none {n : Nat} {record : Block n} {desc : List ChainMember}
    {m : ChainMember} (hapart : desc.Pairwise Apart) (hends : TextsEnd record desc)
    (hm : m ∈ desc) (htype : m.type = .string) (hclear : ¬ ClearFront record m) :
    delEscapeMembers record desc = none := by
  induction desc generalizing record with
  | nil => exact absurd hm List.not_mem_nil
  | cons m₁ desc ih =>
    obtain ⟨hhead, htail⟩ := List.pairwise_cons.mp hapart
    obtain ⟨hend, hendsRest⟩ := List.forall_mem_cons.mp hends
    rw [delEscapeMembers, List.foldlM_cons]
    rcases List.mem_cons.mp hm with rfl | hrest
    · obtain ⟨w, hw, hheld⟩ := hend htype
      rw [delEscapeMember_none htype hw hheld hclear]
      rfl
    by_cases htype₁ : m₁.type = .string
    swap
    · rw [delEscapeMember, if_neg htype₁]
      exact ih htail hendsRest hrest hclear
    obtain ⟨w, hw, hheld⟩ := hend htype₁
    by_cases hclear₁ : ClearFront record m₁
    · obtain ⟨record₁, hrun₁, hwrite⟩ := delEscapeMember_write htype₁ hw hheld hclear₁
      have hothers := fun m' (hm' : Apart m₁ m') => other_members hheld hwrite hm'
      obtain ⟨w', -, hheld'⟩ := hendsRest m hrest htype
      rw [hrun₁]
      refine ih htail ?_ hrest ?_
      · intro m' hm' htype'
        obtain ⟨w', hw', hheld'⟩ := hendsRest m' hm' htype'
        exact ⟨w', hw', hheld'.of_read (hothers m' (hhead m' hm')).1⟩
      · rwa [(hothers m (hhead m hrest)).2 hheld'.size_pos]
    · rw [delEscapeMember_none htype₁ hw hheld hclear₁]
      rfl

/-- A member of the record, or one of an object in the record. -/
def Inside (desc : List ChainMember) (m : ChainMember) : Prop :=
  m ∈ desc ∨ ∀ m₂ ∈ desc, m₂.type = .string → Apart m₂ m

theorem members_iff {n : Nat} {record : Block n} {desc : List ChainMember} {m : ChainMember}
    {v : Bytes} (hapart : desc.Pairwise Apart) (hends : TextsEnd record desc)
    (hm : Inside desc m) (hv : (0 : UInt8) ∉ v) (hholds : Holds record m (escape v)) :
    (∃ record', delEscapeMembers record desc = some record' ∧ Holds record' m v) ↔
      (∀ m₂ ∈ desc, m₂.type = .string → ClearFront record m₂) ∧
        ((m ∈ desc ∧ m.type = .string) ∨ ∀ c ∈ v, isSpecial c = false) := by
  have hfree := escape_nul_free hv
  by_cases hclear : ∀ m₂ ∈ desc, m₂.type = .string → ClearFront record m₂
  swap
  · refine iff_of_false ?_ fun h => hclear h.1
    push Not at hclear
    obtain ⟨m₂, hm₂, htype₂, hfront⟩ := hclear
    rintro ⟨record', hrun, -⟩
    rw [delEscapeMembers_none hapart hends hm₂ htype₂ hfront] at hrun
    cases hrun
  rw [and_iff_right hclear]
  obtain ⟨record', hrun, hstrings, hframe⟩ := delEscapeMembers_reads hapart hends hclear
  by_cases hstring : m ∈ desc ∧ m.type = .string
  · refine iff_of_true ⟨record', hrun, ?_⟩ (Or.inl hstring)
    have hheld := hstrings m hstring.1 hstring.2 (escape v) hfree hholds
    rwa [unescape_escape] at hheld
  have houtside : ∀ m₂ ∈ desc, m₂.type = .string → Apart m₂ m := by
    rcases hm with hm | hm
    · intro m₂ hm₂ htype₂
      have hne : m₂ ≠ m := fun h => hstring ⟨hm, h ▸ htype₂⟩
      exact hapart.forall hm₂ hm hne
    · exact hm
  have hkept : Holds record' m (escape v) := hholds.of_read (hframe m houtside)
  rw [or_iff_right hstring, ← escape_eq_self_iff]
  constructor
  · rintro ⟨record₁, hrun₁, hheld⟩
    cases hrun.symm.trans hrun₁
    exact hkept.unique hheld hfree hv
  · intro hplain
    rw [hplain] at hkept
    exact ⟨record', hrun, hkept⟩

/-- The text that is returned is the escaped value if and only if the two buffers have room
for it. The server then gets the value as it was typed for strings of the plain type, and for
other members only if it has no special characters. The other texts of a record matter where
one begins with a special character and the byte in front of it is a backslash or not in the
record. -/
theorem form_value_kept {req : FormRequest} {s var v : Bytes} {index : Int}
    {queryTempVar : Block maxQueryTempValSize} (hs : source req = .text s)
    (h : getcgiparam req s var index = some (some v)) (hv : (0 : UInt8) ∉ v) :
    ((∃ after, boaGetVarAdv req var index queryTempVar = some (some (escape v), after)) ↔
        HasRoom req queryTempVar v) ∧
      (∀ (T : Tables) (e : MibTableEntry) (more : Bytes), e ∈ T.mibTable →
        e.type.isString = true → v.length < e.size →
          (Stores T e (escape v ++ 0 :: more) v ↔
            e.type = .string ∨
              ((∀ c ∈ v, isSpecial c = false) ∧ e.size ≤ (escape v ++ 0 :: more).length))) ∧
      ∀ (n : Nat) (record : Block n) (desc : List ChainMember) (m : ChainMember),
        desc.Pairwise Apart → TextsEnd record desc → Inside desc m → Holds record m (escape v) →
          ((∃ record', delEscapeMembers record desc = some record' ∧ Holds record' m v) ↔
            (∀ m₂ ∈ desc, m₂.type = .string → ClearFront record m₂) ∧
              ((m ∈ desc ∧ m.type = .string) ∨ ∀ c ∈ v, isSpecial c = false)) :=
  ⟨boaGetVarAdv_returns_iff hs h hv,
    fun _ _ _ he hstring hfit => stores_iff he hstring hv hfit,
    fun _ _ _ _ hapart hends hm hholds => members_iff hapart hends hm hv hholds⟩

def queryRequest (query : String) : FormRequest where
  method := .get
  postData := none
  contentType := none
  queryString := some (ascii query)

theorem getcgiparam_sample :
    getcgiparam (queryRequest "p=a") (ascii "p=a") (ascii "p") (-1) = some (some (ascii "a")) := by
  have hround : advRound (ascii "p") (ascii "p=a") = some (.field (ascii "a") none) := rfl
  rw [getcgiparam, if_neg (by decide), getcgiparamAdv, if_neg (by decide),
    FormReading.advLoop_round (by decide), hround]
  rfl

/-- A buffer that an earlier value has filled to its end. -/
def filledTempVar : Block maxQueryTempValSize :=
  ⟨List.replicate maxQueryTempValSize 120, List.length_replicate⟩

/-- Behind a value that is shorter than an earlier one the buffer is read beyond its end. -/
theorem filled_buffer_overrun :
    ¬ ∀ (req : FormRequest) (s var v : Bytes) (index : Int)
      (queryTempVar : Block maxQueryTempValSize), source req = .text s →
      getcgiparam req s var index = some (some v) → (0 : UInt8) ∉ v →
      ∃ after, boaGetVarAdv req var index queryTempVar = some (some (escape v), after) := by
  intro hclaim
  have hreturned := hclaim (queryRequest "p=a") _ _ _ _ filledTempVar rfl getcgiparam_sample
    (by decide)
  rw [boaGetVarAdv_returns_iff rfl getcgiparam_sample (by decide)] at hreturned
  rcases hreturned.1 with hmultipart | hnul
  · exact absurd hmultipart (by decide)
  · have hmem := List.eq_of_mem_replicate (List.mem_of_mem_drop hnul)
    exact absurd hmem (by decide)

theorem getcgiparam_quoted :
    getcgiparam (queryRequest "p=it's") (ascii "p=it's") (ascii "p") (-1) =
      some (some (ascii "it's")) := by
  have hround : advRound (ascii "p") (ascii "p=it's") = some (.field (ascii "it's") none) := rfl
  rw [getcgiparam, if_neg (by decide), getcgiparamAdv, if_neg (by decide),
    FormReading.advLoop_round (by decide), hround]
  rfl

/-- Two texts, of which only the first comes from a form. -/
def textsDesc : List ChainMember :=
  [.mk (ascii "URL") .string 0 8 none, .mk (ascii "HOST") .string 8 4 none]

def textsRecord : Block 12 := ⟨ascii "it\\'s" ++ [0, 0, 0] ++ ascii "$x" ++ [0, 0], rfl⟩

/-- A value with a quotation mark is kept by an entry and by a member, beside a text that has not
been escaped. -/
theorem form_value_kept_quoted :
    (∃ after, boaGetVarAdv (queryRequest "p=it's") (ascii "p") (-1) (Block.zeros _) =
        some (some (escape (ascii "it's")), after)) ∧
      Stores sampleTables (sampleTables.mibEntry 0) (escape (ascii "it's") ++ [0]) (ascii "it's") ∧
      ∃ record', delEscapeMembers textsRecord textsDesc = some record' ∧
        Holds record' (.mk (ascii "URL") .string 0 8 none) (ascii "it's") := by
  obtain ⟨hreturned, hstored, hmembers⟩ := @form_value_kept (queryRequest "p=it's") _ _ _ _
    (Block.zeros _) rfl getcgiparam_quoted (by decide)
  have hurl : Holds textsRecord (.mk (ascii "URL") .string 0 8 none) (escape (ascii "it's")) :=
    ⟨by decide, _, rfl, ⟨[0, 0], rfl⟩⟩
  have hhost : Holds textsRecord (.mk (ascii "HOST") .string 8 4 none) (ascii "$x") :=
    ⟨by decide, _, rfl, ⟨[0], rfl⟩⟩
  refine ⟨hreturned.mpr ⟨Or.inr ?_, by decide⟩,
    (hstored sampleTables _ [] List.mem_cons_self rfl (by decide)).mpr (Or.inl rfl),
    (hmembers 12 textsRecord textsDesc _ ?_ ?_ (Or.inl List.mem_cons_self) hurl).mpr
      ⟨?_, Or.inl ⟨List.mem_cons_self, rfl⟩⟩⟩
  · have hzeros : (Block.zeros maxQueryTempValSize).1.drop (ascii "it's").length =
        List.replicate (maxQueryTempValSize - (ascii "it's").length) 0 := List.drop_replicate
    rw [hzeros]
    exact List.mem_replicate.mpr ⟨by decide, rfl⟩
  · exact List.pairwise_pair.mpr (Or.inl (by decide))
  · rintro m hm -
    rcases List.mem_pair.mp hm with rfl | rfl
    · exact ⟨_, by decide, hurl⟩
    · exact ⟨_, by decide, hhost⟩
  · rintro m hm - c hc hspecial
    rcases List.mem_pair.mp hm with rfl | rfl
    · cases hc
      exact absurd hspecial (by decide)
    · exact ⟨by decide, by decide⟩

end FormStorage
