import BoaGateway.FormStorage
import BoaGateway.MultipartReading
import BoaGateway.TranslateUri

/-!
# The filter for attacks

`attack_req_check` looks for keywords in the body and the query string of a request, as they
were sent. `boaGetVar` decodes what it delivers, and finds the parts of a multipart body by a
walk of its own.
-/

namespace AttackCheck

open ByteBlocks Texts EscapeText Occurrences Paths CgiParams FormReading MultipartReading FormValues
  FormStorage TranslateUri

/-- `memcasestr`, for the needles of the filter, whose size fits into a `char`. -/
def memcasestr (haystack needle : Bytes) : Bool :=
  (cutFirst (needle.map toLower) (haystack.map toLower)).isSome

def hitKeyword : List Bytes :=
  [ascii "<script", ascii "/script", ascii "alert(", ascii "<img src", ascii "<iframe",
    ascii "/iframe", ascii "onerror", ascii "onclick", ascii "window.location", ascii "><a",
    ascii "javascript", ascii "jQuery", ascii "sleep", ascii "%3Cscript", ascii "%2Fscript",
    ascii "alert%28", ascii "><p"]

/-- `attack_check`, as it is built without `CONFIG_CU`. -/
def attackCheck (buf : Bytes) : Bool := hitKeyword.any fun keyword => memcasestr buf keyword

def hasContentType (headers : Bytes) : Bool := (cutFirst (ascii "Content-Type:") headers).isSome

/-- The loop of `attack_req_check` over the parts of a body. The last part is checked to its
end, and parts with a type of their own are not checked. -/
def partsCheck (boundary start : Bytes) : Bool :=
  match hfound : cutFirst boundary start with
  | none => false
  | some (_, part) =>
    match hend : cutFirst crlfcrlf part with
    | none => if hb : boundary = [] then false else partsCheck boundary part
    | some (headers, body) =>
      if hasContentType (headers ++ crlfcrlf) then partsCheck boundary body
      else
        match hnext : cutFirst boundary body with
        | none => attackCheck body
        | some (value, rest) =>
          attackCheck (value.take (value.length - 2)) || partsCheck boundary (boundary ++ rest)
termination_by start.length
decreasing_by
  · have hlen := cutFirst_length hfound
    have hpos := List.length_pos_iff.mpr hb
    omega
  · have hlen := cutFirst_length hfound
    have hbody := cutFirst_length hend
    have hpos : 0 < crlfcrlf.length := by decide
    omega
  · have hlen := cutFirst_length hfound
    have hbody := cutFirst_length hend
    have hrest := cutFirst_length hnext
    have hpos : 0 < crlfcrlf.length := by decide
    rw [List.length_append]
    omega

def bodyCheck (req : FormRequest) (body : Bytes) : Bool :=
  if req.isMultipart then
    match cutFirst (ascii "boundary=") (req.contentType.getD []) with
    | none => false
    | some (_, s) =>
      let boundary := (s.takeWhile fun c => c != semicolon).take 125
      partsCheck (ascii "--" ++ boundary) body
  else attackCheck body

/-- `attack_req_check`. -/
def attackReqCheck (req : FormRequest) : Bool :=
  (req.method == .post && req.postData.getD [] != [] && bodyCheck req (req.postData.getD [])) ||
    req.queryString.any attackCheck

/-- The keywords without an encoded character. -/
def plainKeywords : List Bytes := hitKeyword.filter fun keyword => !keyword.contains percent

/-- The text contains a plain keyword, in whatever case. -/
def hasKeyword (s : Bytes) : Bool := plainKeywords.any fun keyword => memcasestr s keyword

theorem memcasestr_iff {s t : Bytes} :
    memcasestr s t = true ↔ t.map toLower <:+: s.map toLower := cutFirst_isSome_iff

theorem hasKeyword_iff {s : Bytes} :
    hasKeyword s = true ↔ ∃ k ∈ plainKeywords, k.map toLower <:+: s.map toLower := by
  simp only [hasKeyword, List.any_eq_true, memcasestr_iff]

theorem attackCheck_of_hasKeyword {s : Bytes} (h : hasKeyword s = true) :
    attackCheck s = true := by
  rw [hasKeyword, List.any_eq_true] at h
  obtain ⟨k, hk, hs⟩ := h
  rw [attackCheck, List.any_eq_true]
  exact ⟨k, List.mem_of_mem_filter hk, hs⟩

theorem attackCheck_of_infix {s t : Bytes} (hst : s <:+: t) (h : attackCheck s = true) :
    attackCheck t = true := by
  rw [attackCheck, List.any_eq_true] at h ⊢
  obtain ⟨k, hk, hs⟩ := h
  rw [memcasestr_iff] at hs
  exact ⟨k, hk, memcasestr_iff.mpr (hs.trans (hst.map toLower))⟩

/-- No keyword has a backslash or a zero byte in it. -/
theorem plainKeywords_bytes : ∀ k ∈ plainKeywords, k.map toLower ≠ [] ∧
    backslash ∉ k.map toLower ∧ (0 : UInt8) ∉ k.map toLower := by
  decide

theorem infix_of_padded {t s : Bytes} (ht : t ≠ []) (hzero : (0 : UInt8) ∉ t) (n : Nat)
    (h : t <:+: s ++ List.replicate n 0) : t <:+: s := by
  induction n generalizing s with
  | zero => simpa using h
  | succ n ih =>
    rw [List.replicate_succ, ← cutFirst_isSome_iff, cutFirst_barrier ht hzero] at h
    cases hcut : cutFirst t s with
    | some found =>
      rw [← cutFirst_isSome_iff, hcut]
      rfl
    | none =>
      rw [hcut, Option.isSome_map, cutFirst_isSome_iff] at h
      have hzeros : t <:+: [] := ih (by simpa using h)
      exact absurd (List.infix_nil.mp hzeros) ht

/-- The lower-case text of an escaped text. -/
theorem escape_map_cons (c : UInt8) (s : Bytes) :
    (escape (c :: s)).map toLower =
      (if isSpecial c then [backslash] else []) ++ toLower c :: (escape s).map toLower := by
  cases hc : isSpecial c with
  | true =>
    rw [escape_cons_special hc]
    rfl
  | false =>
    rw [escape_cons_plain hc]
    rfl

theorem isSpecial_toLower (c : UInt8) : isSpecial (toLower c) = isSpecial c := by
  have hletters : ∀ n : Nat, n < 26 → isSpecial (toLower (UInt8.ofNat (n + 65))) =
      isSpecial (UInt8.ofNat (n + 65)) := by decide
  by_cases hc : 65 ≤ c ∧ c ≤ 90
  · have hlow : 65 ≤ c.toNat := UInt8.le_iff_toNat_le.mp hc.1
    have hhigh : c.toNat ≤ 90 := UInt8.le_iff_toNat_le.mp hc.2
    have hletter := hletters (c.toNat - 65) (by omega)
    rwa [Nat.sub_add_cancel (by omega), UInt8.ofNat_toNat] at hletter
  · rw [toLower, if_neg hc]

/-- An escaped text begins like the text itself as far as no special character comes. -/
theorem starts_escape_iff {t s : Bytes} (ht : backslash ∉ t) :
    t <+: (escape s).map toLower ↔ t <+: s.map toLower ∧ ∀ c ∈ t, isSpecial c = false := by
  induction s generalizing t with
  | nil =>
    refine ⟨fun h => ⟨h, fun c hc => ?_⟩, And.left⟩
    rw [List.prefix_nil.mp h] at hc
    cases hc
  | cons c s ih =>
    rw [escape_map_cons]
    cases t with
    | nil => simp
    | cons x t =>
      rw [List.mem_cons, not_or] at ht
      cases hc : isSpecial c with
      | true =>
        refine iff_of_false (fun h => ht.1 (List.cons_prefix_cons.mp h).1.symm) ?_
        rintro ⟨h, hplain⟩
        obtain ⟨rfl, -⟩ := List.cons_prefix_cons.mp h
        rw [List.forall_mem_cons, isSpecial_toLower, hc] at hplain
        cases hplain.1
      | false =>
        simp only [Bool.false_eq_true, if_false, List.nil_append, List.map_cons,
          List.cons_prefix_cons, ih ht.2, List.forall_mem_cons]
        constructor
        · rintro ⟨rfl, hrest, hplain⟩
          exact ⟨⟨rfl, hrest⟩, by rw [isSpecial_toLower, hc], hplain⟩
        · rintro ⟨⟨rfl, hrest⟩, -, hplain⟩
          exact ⟨rfl, hrest, hplain⟩

/-- A keyword survives the escapes if it has no special character behind its first byte. -/
theorem infix_escape_iff {x : UInt8} {t s : Bytes} (ht : backslash ∉ x :: t) :
    x :: t <:+: (escape s).map toLower ↔
      x :: t <:+: s.map toLower ∧ ∀ c ∈ t, isSpecial c = false := by
  induction s with
  | nil => simp [escape]
  | cons c s ih =>
    rw [List.mem_cons, not_or] at ht
    have hhere : x :: t <+: toLower c :: (escape s).map toLower ↔
        x :: t <+: (c :: s).map toLower ∧ ∀ c ∈ t, isSpecial c = false := by
      rw [List.cons_prefix_cons, starts_escape_iff ht.2, List.map_cons, List.cons_prefix_cons,
        and_assoc]
    have hback : ¬ x :: t <+: backslash :: toLower c :: (escape s).map toLower := fun h =>
      ht.1 (List.cons_prefix_cons.mp h).1.symm
    have hsplit : x :: t <:+: (escape (c :: s)).map toLower ↔
        x :: t <+: toLower c :: (escape s).map toLower ∨ x :: t <:+: (escape s).map toLower := by
      rw [escape_map_cons]
      cases isSpecial c with
      | true =>
        rw [if_pos rfl, List.singleton_append, List.infix_cons_iff, or_iff_right hback,
          List.infix_cons_iff]
      | false => rw [if_neg Bool.false_ne_true, List.nil_append, List.infix_cons_iff]
    rw [hsplit, hhere, ih, ← or_and_right, List.map_cons, List.infix_cons_iff]

/-- The text that is returned for a value. -/
def shownText (v : Bytes) : Bytes := escape (strncpy v v.length)

/-- The keywords that the escapes do not break up. -/
def shownKeywords : List Bytes := plainKeywords.filter fun k => k.tail.all fun c => !isSpecial c

theorem strncpy_text (v : Bytes) :
    strncpy v v.length = cstr v ++ List.replicate (v.length - strlen v) 0 := by
  rw [strncpy, List.take_of_length_le (cstr_isPrefix v).length_le]

theorem infix_padded_iff {t s : Bytes} (ht : t ≠ []) (hzero : (0 : UInt8) ∉ t) (n : Nat) :
    t <:+: s ++ List.replicate n 0 ↔ t <:+: s :=
  ⟨infix_of_padded ht hzero n, fun h => h.trans (List.prefix_append s _).isInfix⟩

/-- A keyword is returned if the value has it in front of its first zero byte, and the escapes
leave it together. -/
theorem hasKeyword_shown_iff {v : Bytes} : hasKeyword (shownText v) = true ↔
    ∃ k ∈ shownKeywords, k.map toLower <:+: (cstr v).map toLower := by
  simp only [hasKeyword_iff, shownKeywords, List.mem_filter, List.all_eq_true, Bool.not_eq_true',
    and_assoc]
  refine exists_congr fun k => and_congr_right fun hk => ?_
  obtain ⟨hne, hback, hzero⟩ := plainKeywords_bytes k hk
  cases k with
  | nil => exact absurd rfl hne
  | cons x t =>
    rw [List.map_cons] at hne hback hzero ⊢
    rw [shownText, infix_escape_iff hback, strncpy_text, List.map_append, List.map_replicate,
      show toLower 0 = 0 from rfl, infix_padded_iff hne hzero, and_comm]
    simp only [List.tail_cons, List.forall_mem_map, isSpecial_toLower]

theorem escape_length (s : Bytes) : (escape s).length = s.length + s.countP isSpecial := by
  induction s with
  | nil => rfl
  | cons c s ih =>
    cases hc : isSpecial c with
    | true =>
      rw [escape_cons_special hc, List.countP_cons_of_pos hc]
      simp only [List.length_cons, ih]
      omega
    | false =>
      rw [escape_cons_plain hc, List.countP_cons_of_neg (by simp [hc])]
      simp only [List.length_cons, ih]
      omega

theorem shownText_length (v : Bytes) :
    (shownText v).length = v.length + (cstr v).countP isSpecial := by
  have hzeros : (List.replicate (v.length - strlen v) (0 : UInt8)).countP isSpecial = 0 := by
    rw [List.countP_replicate, if_neg (by decide)]
  rw [shownText, escape_length, strncpy_length, strncpy_text, List.countP_append, hzeros,
    Nat.add_zero]

/-- A keyword in the text that is returned is one of the value itself. -/
theorem hasKeyword_of_shown {v : Bytes} (h : hasKeyword (shownText v) = true) :
    hasKeyword v = true := by
  obtain ⟨k, hk, hwithin⟩ := hasKeyword_shown_iff.mp h
  rw [hasKeyword_iff]
  exact ⟨k, List.mem_of_mem_filter hk,
    hwithin.trans ((cstr_isPrefix v).isInfix.map toLower)⟩

/-- The pieces of a field text that stand for one byte each: `%` with two digits, or one byte. -/
def units : Bytes → List Bytes
  | [] => []
  | c :: h :: l :: s =>
    if c = 0 ∨ c = amp then []
    else if c = percent ∧ isHex h = true ∧ isHex l = true then [c, h, l] :: units s
    else [c] :: units (h :: l :: s)
  | c :: s => if c = 0 ∨ c = amp then [] else [c] :: units s

def decodeUnit : Bytes → UInt8
  | [_, h, l] => 16 * hexValue h + hexValue l
  | [c] => if c = plus then blank else c
  | _ => 0

/-- The copy loop decodes piece by piece. -/
theorem copyValue_eq_units (n : Nat) (text : Bytes) :
    copyValue n text = ((units text).take n).map decodeUnit := by
  fun_induction copyValue n text with
  | case1 => rfl
  | case2 => rw [units, List.take_nil, List.map_nil]
  | case3 y c s hc => rcases s with _ | ⟨h, _ | ⟨l, s⟩⟩ <;> simp [units, hc]
  | case4 y c hc h l s hhex ih => rw [units, if_neg hc, if_pos hhex, ih]; rfl
  | case5 y c hc h l s hhex ih => rw [units, if_neg hc, if_neg hhex, ih]; rfl
  | case6 y c hc s hshort ih =>
    rcases s with _ | ⟨h, _ | ⟨l, s⟩⟩
    · simp [units, hc, ih, decodeUnit]
    · simp [units, hc, ih, decodeUnit]
    · exact absurd rfl (hshort h l s)

theorem units_prefix (text : Bytes) : (units text).flatten <+: text := by
  fun_induction units text with
  | case1 | case2 | case5 => exact List.nil_prefix
  | case3 c h l s _ _ ih => simpa using ih
  | case4 c h l s _ _ ih => simpa using ih
  | case6 c s _ _ ih => simpa using ih

/-- The pieces in front of the first one that stands for a zero byte. -/
def visible (text : Bytes) : List Bytes :=
  ((units text).take maxQueryTempValSize).takeWhile fun u => decodeUnit u != 0

theorem cstr_map_units (us : List Bytes) :
    cstr (us.map decodeUnit) = (us.takeWhile fun u => decodeUnit u != 0).map decodeUnit := by
  induction us with
  | nil => rfl
  | cons u us ih =>
    rw [List.map_cons, cstr, List.takeWhile_cons]
    by_cases hu : decodeUnit u = 0
    · simp [hu]
    · simp [hu, ih]

/-- The parts that a walk through a body comes to: their headers, and all that stands behind
them. -/
def parts (boundary start : Bytes) : List (Bytes × Bytes) :=
  match hfound : cutFirst boundary start with
  | none => []
  | some (_, part) =>
    match hend : cutFirst crlfcrlf part with
    | none => if hb : boundary = [] then [] else parts boundary part
    | some (headers, body) => (headers ++ crlfcrlf, body) :: parts boundary body
termination_by start.length
decreasing_by
  · have hlen := cutFirst_length hfound
    have hpos := List.length_pos_iff.mpr hb
    omega
  · have hlen := cutFirst_length hfound
    have hbody := cutFirst_length hend
    have hpos : 0 < crlfcrlf.length := by decide
    omega

theorem parts_round {boundary : Bytes} (hb : boundary ≠ []) (start : Bytes) :
    parts boundary start =
      match cutFirst boundary start with
      | none => []
      | some (_, part) =>
        match cutFirst crlfcrlf part with
        | none => parts boundary part
        | some (headers, body) => (headers ++ crlfcrlf, body) :: parts boundary body := by
  rw [parts]
  split <;> rename_i hfound <;> rw [hfound]
  split <;> rename_i hend <;> simp only [hend]
  rw [dif_neg hb]

theorem parts_within {boundary start : Bytes} {p : Bytes × Bytes}
    (hp : p ∈ parts boundary start) : p.2 <:+: start := by
  fun_induction parts boundary start with
  | case1 | case2 => exact absurd hp List.not_mem_nil
  | case3 start before part hfound _ _ ih =>
    rw [cutFirst_eq_some hfound]
    exact (ih hp).trans ((List.suffix_append boundary part).trans
      (List.suffix_append before _)).isInfix
  | case4 start before part hfound headers body hend ih =>
    have hsub : body <:+: start := by
      rw [cutFirst_eq_some hfound, cutFirst_eq_some hend]
      exact ((List.suffix_append crlfcrlf body).trans ((List.suffix_append headers _).trans
        ((List.suffix_append boundary _).trans (List.suffix_append before _)))).isInfix
    rcases List.mem_cons.mp hp with rfl | hp
    · exact hsub
    · exact (ih hp).trans hsub

/-- What the filter takes for the value of a part. -/
def partText (boundary body : Bytes) : Bytes :=
  match cutFirst boundary body with
  | none => body
  | some (value, _) => value.take (value.length - 2)

theorem partText_of_some {boundary body value rest : Bytes}
    (h : cutFirst boundary body = some (value, rest)) :
    partText boundary body = value.take (value.length - 2) := by
  rw [partText, h]

/-- The filter checks the parts without a type of their own. -/
theorem partsCheck_eq {boundary : Bytes} (hb : boundary ≠ []) (start : Bytes) :
    partsCheck boundary start = (parts boundary start).any fun p =>
      !hasContentType p.1 && attackCheck (partText boundary p.2) := by
  fun_induction partsCheck boundary start with
  | case1 start hfound => rw [parts_round hb, hfound]; rfl
  | case2 => contradiction
  | case3 start before part hfound hend _ ih =>
    rw [parts_round hb, hfound]
    simp only [hend]
    exact ih
  | case4 start before part hfound headers body hend htype ih =>
    rw [parts_round hb, hfound]
    simp only [hend, List.any_cons, htype, Bool.not_true, Bool.false_and, Bool.false_or]
    exact ih
  | case5 start before part hfound headers body hend htype hnext =>
    rw [parts_round hb, hfound]
    simp only [hend, List.any_cons, htype, partText, hnext]
    rw [parts_round hb, hnext]
    simp
  | case6 start before part hfound headers body hend htype value rest hnext ih =>
    have hplace : parts boundary body = parts boundary (boundary ++ rest) := by
      rw [parts_round hb body, parts_round hb (boundary ++ rest), hnext, cutFirst_self_append]
    rw [parts_round hb, hfound]
    simp only [hend, List.any_cons, htype, partText_of_some hnext, hplace, ih]
    rfl

/-- The part whose headers name the variable. -/
def namedPart (param : Bytes) : List (Bytes × Bytes) → Option (Option (Bytes × Bytes))
  | [] => some none
  | p :: ps =>
    match namesParam p.1 p.2 param with
    | none => none
    | some false => namedPart param ps
    | some true => some (some p)

theorem namedPart_mem {param : Bytes} {ps : List (Bytes × Bytes)} {p : Bytes × Bytes}
    (h : namedPart param ps = some (some p)) : p ∈ ps := by
  induction ps with
  | nil => cases h
  | cons q ps ih =>
    rw [namedPart] at h
    split at h
    · cases h
    · exact List.mem_cons_of_mem q (ih h)
    · cases h
      exact List.mem_cons_self

/-- The value that `getcgiparam_multipart` delivers of a part. -/
def partValue (maxlen : Nat) (boundary body : Bytes) : Option (Option Bytes) :=
  match cutFirst boundary body with
  | none => some none
  | some (value, _) =>
    if value.length < 2 then none
    else if value.length - 2 < maxlen then some (some (value.take (value.length - 2)))
    else some none

theorem partValue_eq {maxlen : Nat} {boundary body v : Bytes}
    (h : partValue maxlen boundary body = some (some v)) :
    v = partText boundary body ∧ v <:+: body ∧ v.length < maxlen := by
  rw [partValue] at h
  split at h
  · cases h
  rename_i value rest hcut
  split at h
  · cases h
  split at h
  · rename_i hfit
    cases h
    refine ⟨(partText_of_some hcut).symm, ?_,
      Nat.lt_of_le_of_lt (List.length_take_le _ _) hfit⟩
    rw [cutFirst_eq_some hcut]
    exact ((List.take_prefix _ _).trans (List.prefix_append value _)).isInfix
  · cases h

/-- The search for a variable goes the same way as the filter. -/
theorem multipartLoop_eq_parts {boundary : Bytes} (hb : boundary ≠ []) (maxlen : Nat)
    (param start : Bytes) :
    multipartLoop maxlen boundary param start =
      match namedPart param (parts boundary start) with
      | none => none
      | some none => some none
      | some (some p) => partValue maxlen boundary p.2 := by
  induction hsize : start.length using Nat.strong_induction_on generalizing start with
  | _ size ih =>
    by_cases hstart : start = []
    · rw [multipartLoop, if_pos hstart, hstart, parts_round hb, cutFirst_nil hb]
      rfl
    rw [multipartLoop_round hstart hb, parts_round hb]
    cases hfound : cutFirst boundary start with
    | none => rfl
    | some found =>
      obtain ⟨before, part⟩ := found
      have hlen := cutFirst_length hfound
      have hpos := List.length_pos_iff.mpr hb
      cases hend : cutFirst crlfcrlf part with
      | none =>
        simp only [hend]
        exact ih part.length (by omega) part rfl
      | some cut =>
        obtain ⟨headers, body⟩ := cut
        have hbody := cutFirst_length hend
        simp only [hend, namedPart]
        cases namesParam (headers ++ crlfcrlf) body param with
        | none => rfl
        | some named =>
          cases named with
          | false => exact ih body.length (by omega) body rfl
          | true => rfl

/-- The search for a variable comes to a field with this text. -/
inductive Selects (param : Bytes) : Bytes → Bytes → Prop where
  | here {start text : Bytes} {rest : Option Bytes} (hstart : start ≠ [])
      (hround : advRound param start = some (.field text rest)) : Selects param start text
  | later {start behind text : Bytes} (hstart : start ≠ []) (hparam : param ≠ [])
      (hround : advRound param start = some (.passed behind))
      (hbehind : Selects param behind text) : Selects param start text

theorem advLoop_eq_some_iff {maxlen count : Nat} {param start v : Bytes} :
    advLoop maxlen param (-1) count start = some (some v) ↔
      ∃ text, Selects param start text ∧ v = copyValue maxlen text := by
  constructor
  · intro h
    fun_induction advLoop maxlen param (-1) count start with
    | case1 | case2 | case3 | case8 => cases h
    | case4 count start hstart value hround hindex =>
      cases h
      exact ⟨value, .here hstart hround, rfl⟩
    | case5 count start hstart value hround hindex => exact absurd (Or.inl (by decide)) hindex
    | case6 count start hstart value rest hround hindex =>
      cases h
      exact ⟨value, .here hstart hround, rfl⟩
    | case7 count start hstart value rest hround hindex =>
      exact absurd (Or.inl (by decide)) hindex
    | case9 count start hstart behind hround hparam ih =>
      obtain ⟨text, hselects, hv⟩ := ih h
      exact ⟨text, .later hstart hparam hround hselects, hv⟩
  · rintro ⟨text, hselects, rfl⟩
    induction hselects with
    | here hstart hround =>
      rename_i rest
      rw [advLoop_round hstart, hround]
      cases rest with
      | none => rfl
      | some rest => rfl
    | later hstart hparam hround hbehind ih =>
      rw [advLoop_round hstart, hround]
      exact (if_neg hparam).trans ih

/-- What stands behind an equals sign, up to the next `&`. -/
def valueTexts (s : Bytes) : List Bytes :=
  s.tails.filterMap fun t =>
    if t.head? = some equals then some (t.tail.takeWhile fun c => c != amp) else none

theorem mem_valueTexts {s t text : Bytes} (ht : t <:+ s) (hequals : t.head? = some equals)
    (htext : t.tail.takeWhile (fun c => c != amp) = text) : text ∈ valueTexts s := by
  rw [valueTexts, List.mem_filterMap]
  exact ⟨t, (List.mem_tails t s).mpr ht, by rw [if_pos hequals, htext]⟩

theorem valueTexts_mono {s t : Bytes} (h : t <:+ s) : valueTexts t ⊆ valueTexts s := by
  intro text htext
  rw [valueTexts, List.mem_filterMap] at htext ⊢
  obtain ⟨u, hu, hequals⟩ := htext
  exact ⟨u, (List.mem_tails u s).mpr (((List.mem_tails u t).mp hu).trans h), hequals⟩

theorem valueTexts_infix {s text : Bytes} (h : text ∈ valueTexts s) : text <:+: s := by
  rw [valueTexts, List.mem_filterMap] at h
  obtain ⟨t, ht, hequals⟩ := h
  rw [Option.ite_none_right_eq_some, Option.some_inj] at hequals
  obtain ⟨-, rfl⟩ := hequals
  exact (List.takeWhile_prefix _).isInfix.trans
    ((List.tail_suffix t).trans ((List.mem_tails t s).mp ht)).isInfix

theorem selects_mem {param start text : Bytes} (h : Selects param start text) :
    text ∈ valueTexts start := by
  induction h with
  | here hstart hround =>
    obtain ⟨before, place, rfl, -, hfield⟩ := advRound_found hround (by rintro ⟨⟩)
    split at hfield
    · rename_i hequals
      have hplace := (List.drop_suffix param.length place).trans (List.suffix_append before place)
      rw [isField, Bool.and_eq_true, beq_iff_eq] at hequals
      refine mem_valueTexts hplace hequals.2 ?_
      split at hfield
      · rename_i hnone
        cases hfield
        rw [cutFirst_eq_none_iff, List.singleton_infix_iff] at hnone
        rw [List.takeWhile_eq_self_iff]
        intro c hc
        rw [bne_iff_ne]
        exact fun hamp => hnone (hamp ▸ hc)
      · rename_i hcut
        cases hfield
        exact takeWhile_of_cutFirst hcut
    · cases hfield
  | later hstart hparam hround hbehind ih =>
    obtain ⟨before, place, rfl, -, hpassed⟩ := advRound_found hround (by rintro ⟨⟩)
    split at hpassed
    · split at hpassed <;> cases hpassed
    · cases hpassed
      exact valueTexts_mono ((List.drop_suffix _ place).trans (List.suffix_append before place)) ih

/-- The first field is found for any name that fits. -/
theorem selects_front {name text : Bytes} (hname : name.length ≤ 127) (htext : amp ∉ text) :
    Selects name (name ++ equals :: text) text := by
  have hround : advRound name (name ++ equals :: text) = some (.field text none) := by
    rw [advRound_of_some hname (cutFirst_self_append name (equals :: text)), isField]
    simp [cutFirst_singleton_none htext]
  exact .here (by simp) hround

/-- The delimiter that `getcgiparam_multipart` looks for. -/
def delimiter (contentType : Bytes) : Option Bytes :=
  match cutFirst (ascii "boundary=") contentType with
  | none => none
  | some (_, s) =>
    let boundary := s.takeWhile fun c => c != semicolon
    if 125 < boundary.length then none else some (ascii "--" ++ boundary)

/-- The search for a variable comes to this part. -/
def SelectsPart (req : FormRequest) (s var boundary : Bytes) (p : Bytes × Bytes) : Prop :=
  delimiter (req.contentType.getD []) = some boundary ∧
    namedPart var (parts boundary s) = some (some p)

theorem getcgiparam_part_iff {req : FormRequest} {s var v : Bytes} {index : Int}
    (hmultipart : req.isMultipart = true) :
    getcgiparam req s var index = some (some v) ↔ var.length ≤ s.length ∧
      ∃ boundary p, SelectsPart req s var boundary p ∧
        partValue maxQueryTempValSize boundary p.2 = some (some v) := by
  rw [getcgiparam, hmultipart, if_pos rfl, getcgiparamMultipart]
  by_cases hshort : s.length < var.length
  · rw [if_pos hshort]
    exact iff_of_false (by rintro ⟨⟩) fun h => absurd h.1 (Nat.not_le_of_lt hshort)
  rw [if_neg hshort, and_iff_right (Nat.le_of_not_lt hshort)]
  simp only [SelectsPart, delimiter]
  cases cutFirst (ascii "boundary=") (req.contentType.getD []) with
  | none => simp
  | some found =>
    dsimp only
    split
    · simp
    · have hb : ascii "--" ++ found.2.takeWhile (fun c => c != semicolon) ≠ [] :=
        List.append_ne_nil_of_left_ne_nil (by decide) _
      rw [multipartLoop_eq_parts hb]
      constructor
      · intro h
        split at h
        · cases h
        · cases h
        · rename_i p hnamed
          exact ⟨_, p, ⟨rfl, hnamed⟩, h⟩
      · rintro ⟨boundary, p, ⟨hboundary, hnamed⟩, hvalue⟩
        cases hboundary
        rw [hnamed]
        exact hvalue

theorem getcgiparam_field_iff {req : FormRequest} {s var v : Bytes}
    (hmultipart : req.isMultipart = false) :
    getcgiparam req s var (-1) = some (some v) ↔ var.length ≤ s.length ∧
      ∃ text, Selects var s text ∧ v = copyValue maxQueryTempValSize text := by
  rw [getcgiparam, hmultipart, if_neg (by decide), getcgiparamAdv, ← advLoop_eq_some_iff]
  split
  · rename_i hshort
    exact iff_of_false (by rintro ⟨⟩) fun h => absurd h.1 (Nat.not_le_of_lt hshort)
  · rename_i hshort
    exact (and_iff_right (Nat.le_of_not_lt hshort)).symm

/-- The buffers have room for the value and the backslashes, and a keyword in the value stays
together. -/
def Shows (v : Bytes) : Prop :=
  (v.length < maxQueryTempValSize ∨ (0 : UInt8) ∈ v) ∧
    v.length + (cstr v).countP isSpecial ≤ maxQueryTempValSize ∧
    ∃ k ∈ shownKeywords, k.map toLower <:+: (cstr v).map toLower

theorem shows_iff {v : Bytes} : Shows v ↔
    (v.length < maxQueryTempValSize ∨ (0 : UInt8) ∈ v) ∧
      (shownText v).length ≤ maxQueryTempValSize ∧ hasKeyword (shownText v) = true := by
  rw [Shows, shownText_length, hasKeyword_shown_iff]

theorem boaGetVar_source {req : FormRequest} {var text : Bytes}
    {queryTempVar after : Block maxQueryTempValSize}
    (h : boaGetVar req var queryTempVar = some (some text, after)) :
    ∃ s, source req = .text s := by
  rw [boaGetVar, boaGetVarAdv] at h
  cases hsource : source req with
  | missing =>
    rw [hsource] at h
    cases h
  | empty =>
    simp only [hsource, escapeValue] at h
    split at h <;> cases h
  | text s => exact ⟨s, rfl⟩

/-- A keyword is returned for a variable if its value shows one. -/
theorem boaGetVar_shows_iff {req : FormRequest} {s var : Bytes} (hs : source req = .text s) :
    (∃ queryTempVar text after, boaGetVar req var queryTempVar = some (some text, after) ∧
        hasKeyword text = true) ↔
      ∃ v, getcgiparam req s var (-1) = some (some v) ∧ Shows v := by
  constructor
  · rintro ⟨queryTempVar, text, after, hreturn, hkeyword⟩
    rw [boaGetVar, boaGetVarAdv] at hreturn
    simp only [hs] at hreturn
    cases hvalue : getcgiparam req s var (-1) with
    | none =>
      rw [hvalue] at hreturn
      cases hreturn
    | some found =>
      cases found with
      | none =>
        simp only [hvalue, escapeValue] at hreturn
        split at hreturn <;> cases hreturn
      | some v =>
        obtain ⟨left, rest, hleave, hleft, -⟩ := leaveValue_eq hvalue queryTempVar
        have hlen := left.2
        rw [hleft, List.length_append] at hlen
        simp only [hvalue, hleave, escapeValue_text hleft] at hreturn
        split at hreturn
        · rename_i hroom
          cases hreturn
          refine ⟨v, rfl, shows_iff.mpr ⟨?_, hroom.2, hkeyword⟩⟩
          rcases List.mem_append.mp hroom.1 with hv | hrest
          · exact Or.inr hv
          · have hpos := List.length_pos_of_mem hrest
            exact Or.inl (by omega)
        · cases hreturn
  · rintro ⟨v, hvalue, hshows⟩
    obtain ⟨hnul, hroom, hkeyword⟩ := shows_iff.mp hshows
    obtain ⟨left, rest, hleave, hleft, hrest⟩ := leaveValue_eq hvalue (Block.zeros _)
    have hmem : (0 : UInt8) ∈ v ++ rest := by
      rw [List.mem_append]
      rcases hnul with hshort | hv
      · have hzeros : (Block.zeros maxQueryTempValSize).1.drop v.length =
            List.replicate (maxQueryTempValSize - v.length) 0 := List.drop_replicate
        refine Or.inr (hrest.mpr (Or.inr ?_))
        rw [hzeros]
        exact List.mem_replicate.mpr ⟨by omega, rfl⟩
      · exact Or.inl hv
    refine ⟨Block.zeros _, shownText v, left, ?_, hkeyword⟩
    rw [boaGetVar, boaGetVarAdv]
    simp only [hs, hvalue, hleave, escapeValue_text hleft]
    rw [if_pos ⟨hmem, hroom⟩]
    rfl

/-- The buffers have room for what the pieces of the text stand for, and for the backslashes. -/
def Room (text : Bytes) : Prop :=
  ((units text).length < maxQueryTempValSize ∨
      ∃ u ∈ (units text).take maxQueryTempValSize, decodeUnit u = 0) ∧
    ((units text).take maxQueryTempValSize).length +
      (visible text).countP (fun u => isSpecial (decodeUnit u)) ≤ maxQueryTempValSize

/-- Some pieces in a row stand for a keyword, and one of them does not stand for itself. -/
def EncodesKeyword (text : Bytes) : Prop :=
  ∃ run, run <:+: visible text ∧ (∃ u ∈ run, u ≠ [decodeUnit u]) ∧
    ∃ k ∈ shownKeywords, (run.map decodeUnit).map toLower = k.map toLower

/-- A keyword is where the filter does not see it: some of its letters are encoded in a field that
the search for a variable comes to, or it is in a part that has a type of its own. -/
def HidesKeyword (req : FormRequest) : Prop :=
  ∃ s var, source req = .text s ∧ (0 : UInt8) ∉ var ∧ var.length ≤ s.length ∧
    if req.isMultipart then
      ∃ boundary p v, SelectsPart req s var boundary p ∧ hasContentType p.1 = true ∧
        partValue maxQueryTempValSize boundary p.2 = some (some v) ∧ Shows v
    else ∃ text, Selects var s text ∧ Room text ∧ EncodesKeyword text

theorem shows_units_iff {text : Bytes} : Shows (copyValue maxQueryTempValSize text) ↔
    Room text ∧ ∃ run, run <:+: visible text ∧
      ∃ k ∈ shownKeywords, (run.map decodeUnit).map toLower = k.map toLower := by
  have hshort : ((units text).take maxQueryTempValSize).length < maxQueryTempValSize ↔
      (units text).length < maxQueryTempValSize := by
    rw [List.length_take]
    omega
  rw [Shows, copyValue_eq_units, cstr_map_units, List.length_map, hshort, List.mem_map,
    List.countP_map, Room, and_assoc]
  refine and_congr_right fun _ => and_congr_right fun _ => ?_
  constructor
  · rintro ⟨k, hk, hwithin⟩
    rw [List.map_map, List.infix_map_iff] at hwithin
    obtain ⟨run, hrun, hsame⟩ := hwithin
    exact ⟨run, hrun, k, hk, by rw [List.map_map, hsame]⟩
  · rintro ⟨run, hrun, k, hk, hsame⟩
    exact ⟨k, hk, hsame ▸ (hrun.map decodeUnit).map toLower⟩

theorem flatten_literal {run : List Bytes} (h : ∀ u ∈ run, u = [decodeUnit u]) :
    run.flatten = run.map decodeUnit := by
  induction run with
  | nil => rfl
  | cons u run ih =>
    obtain ⟨hu, hrest⟩ := List.forall_mem_cons.mp h
    rw [List.flatten_cons, ih hrest, List.map_cons, ← List.singleton_append, ← hu]

/-- Pieces that stand for themselves are in the text as they are. -/
theorem literal_infix {text : Bytes} {run : List Bytes} (hrun : run <:+: visible text)
    (hliteral : ∀ u ∈ run, u = [decodeUnit u]) : run.map decodeUnit <:+: text := by
  have hunits : run <:+: units text :=
    hrun.trans ((List.takeWhile_prefix _).isInfix.trans (List.take_prefix _ _).isInfix)
  rw [← flatten_literal hliteral]
  obtain ⟨pre, post, hsplit⟩ := hunits
  have hprefix := units_prefix text
  refine List.IsInfix.trans ⟨pre.flatten, post.flatten, ?_⟩ hprefix.isInfix
  rw [← hsplit, List.flatten_append, List.flatten_append]

/-- The filter reads the text that `boaGetVar_adv` reads. -/
theorem source_checked {req : FormRequest} {s : Bytes} (h : attackReqCheck req = false)
    (hs : source req = .text s) : attackCheck s = false ∨ bodyCheck req s = false := by
  rw [attackReqCheck, Bool.or_eq_false_iff] at h
  obtain ⟨hbody, hquery⟩ := h
  rw [source] at hs
  split at hs
  · rename_i hpost
    split at hs
    · cases hs
    · rename_i query hnone hsome
      cases hs
      rw [hsome] at hquery
      exact Or.inl hquery
    · rename_i body query hmissing hempty
      cases hs
      have hne : req.postData.getD [] ≠ [] := by
        intro hnil
        cases hq : req.queryString with
        | none => exact hmissing hnil hq
        | some query => exact hempty query hnil hq
      exact Or.inr (by simpa [hpost, hne] using hbody)
  · split at hs
    · cases hs
    · rename_i query hsome
      cases hs
      rw [hsome] at hquery
      exact Or.inl hquery

/-- In a multipart body every keyword that is delivered comes from a part with its own type. -/
theorem part_has_type {req : FormRequest} {s var boundary v : Bytes} {p : Bytes × Bytes}
    (h : attackReqCheck req = false) (hs : source req = .text s)
    (hmultipart : req.isMultipart = true) (hselects : SelectsPart req s var boundary p)
    (hvalue : partValue maxQueryTempValSize boundary p.2 = some (some v))
    (hkeyword : hasKeyword v = true) : hasContentType p.1 = true := by
  have hattack := attackCheck_of_hasKeyword hkeyword
  obtain ⟨hv, hwithin, -⟩ := partValue_eq hvalue
  obtain ⟨hdelimiter, hnamed⟩ := hselects
  have hp := namedPart_mem hnamed
  rcases source_checked h hs with hclean | hclean
  · have hwhole := attackCheck_of_infix (hwithin.trans (parts_within hp)) hattack
    rw [hclean] at hwhole
    cases hwhole
  · rw [bodyCheck, hmultipart, if_pos rfl] at hclean
    rw [delimiter] at hdelimiter
    split at hdelimiter
    · cases hdelimiter
    rename_i s' hcut
    rw [hcut] at hclean
    dsimp only at hdelimiter hclean
    split at hdelimiter
    · cases hdelimiter
    rename_i hlen
    cases hdelimiter
    have hb : ascii "--" ++ s'.takeWhile (fun c => c != semicolon) ≠ [] :=
      List.append_ne_nil_of_left_ne_nil (by decide) _
    rw [List.take_of_length_le (Nat.le_of_not_lt hlen), partsCheck_eq hb, List.any_eq_false]
      at hclean
    have hunchecked := hclean p hp
    rw [← hv, hattack, Bool.and_true] at hunchecked
    simpa using hunchecked

/-- In a field every keyword that is delivered is one with encoded letters. -/
theorem keyword_encoded {req : FormRequest} {s var text : Bytes} (h : attackReqCheck req = false)
    (hs : source req = .text s) (hmultipart : req.isMultipart = false)
    (hselects : Selects var s text) (hshows : Shows (copyValue maxQueryTempValSize text)) :
    Room text ∧ EncodesKeyword text := by
  obtain ⟨hroom, run, hrun, k, hk, hsame⟩ := shows_units_iff.mp hshows
  refine ⟨hroom, run, hrun, ?_, k, hk, hsame⟩
  by_contra hnone
  push Not at hnone
  -- the keyword would stand in the text as it was sent
  have hkeyword : hasKeyword s = true := by
    rw [hasKeyword_iff]
    refine ⟨k, List.mem_of_mem_filter hk, ?_⟩
    rw [← hsame]
    have htext := literal_infix hrun hnone
    have hsource := valueTexts_infix (selects_mem hselects)
    exact (htext.trans hsource).map toLower
  have hattack := attackCheck_of_hasKeyword hkeyword
  rcases source_checked h hs with hclean | hclean
  · rw [hclean] at hattack
    cases hattack
  · rw [bodyCheck, hmultipart, if_neg Bool.false_ne_true, hattack] at hclean
    cases hclean

/-- Of a request that passes the filter, `boaGetVar` returns no keyword for any variable, if and
only if the request does not hide one. -/
theorem passed_request_iff {req : FormRequest} (h : attackReqCheck req = false) :
    (∀ var, (0 : UInt8) ∉ var → ∀ queryTempVar text after,
        boaGetVar req var queryTempVar = some (some text, after) → hasKeyword text = false) ↔
      ¬ HidesKeyword req := by
  constructor
  · rintro hclean ⟨s, var, hs, hvar, hlen, hhidden⟩
    obtain ⟨v, hvalue, hshows⟩ : ∃ v, getcgiparam req s var (-1) = some (some v) ∧ Shows v := by
      cases hmultipart : req.isMultipart with
      | true =>
        rw [hmultipart, if_pos rfl] at hhidden
        obtain ⟨boundary, p, v, hselects, -, hvalue, hshows⟩ := hhidden
        exact ⟨v, (getcgiparam_part_iff hmultipart).mpr ⟨hlen, boundary, p, hselects, hvalue⟩,
          hshows⟩
      | false =>
        rw [hmultipart, if_neg (by decide)] at hhidden
        obtain ⟨text, hselects, hroom, run, hrun, -, hkeyword⟩ := hhidden
        exact ⟨_, (getcgiparam_field_iff hmultipart).mpr ⟨hlen, text, hselects, rfl⟩,
          shows_units_iff.mpr ⟨hroom, run, hrun, hkeyword⟩⟩
    obtain ⟨queryTempVar, text, after, hreturn, hkeyword⟩ :=
      (boaGetVar_shows_iff hs).mpr ⟨v, hvalue, hshows⟩
    have hno := hclean var hvar queryTempVar text after hreturn
    rw [hkeyword] at hno
    cases hno
  · intro hhides var hvar queryTempVar text after hreturn
    rw [Bool.eq_false_iff]
    intro hkeyword
    apply hhides
    obtain ⟨s, hs⟩ := boaGetVar_source hreturn
    obtain ⟨v, hvalue, hshows⟩ :=
      (boaGetVar_shows_iff hs).mp ⟨queryTempVar, text, after, hreturn, hkeyword⟩
    cases hmultipart : req.isMultipart with
    | true =>
      obtain ⟨hlen, boundary, p, hselects, hpart⟩ := (getcgiparam_part_iff hmultipart).mp hvalue
      refine ⟨s, var, hs, hvar, hlen, ?_⟩
      rw [hmultipart, if_pos rfl]
      have htype := part_has_type h hs hmultipart hselects hpart
        (hasKeyword_of_shown (shows_iff.mp hshows).2.2)
      exact ⟨boundary, p, v, hselects, htype, hpart, hshows⟩
    | false =>
      obtain ⟨hlen, text, hselects, rfl⟩ := (getcgiparam_field_iff hmultipart).mp hvalue
      refine ⟨s, var, hs, hvar, hlen, ?_⟩
      rw [hmultipart, if_neg (by decide)]
      exact ⟨text, hselects, keyword_encoded h hs hmultipart hselects hshows⟩

/-- A letter of the keyword is percent-encoded, and the filter does not see it. -/
theorem encoded_keyword_passes :
    ¬ ∀ req : FormRequest, attackReqCheck req = false → ∀ var, (0 : UInt8) ∉ var →
      ∀ queryTempVar text after,
        boaGetVar req var queryTempVar = some (some text, after) → hasKeyword text = false := by
  intro hclaim
  have hpassed : attackReqCheck (queryRequest "p=j%61vascript") = false := by decide
  refine (passed_request_iff hpassed).mp (hclaim _ hpassed) ?_
  refine ⟨_, ascii "p", rfl, by decide, by decide, ?_⟩
  rw [if_neg (by decide)]
  refine ⟨ascii "j%61vascript", selects_front (by decide) (by decide), ⟨Or.inl (by decide),
    by decide⟩, visible (ascii "j%61vascript"), List.infix_rfl, ⟨ascii "%61", by decide,
    by decide⟩, ascii "javascript", by decide, by decide⟩

/-- Two fields with encoded letters, of which none makes a keyword. -/
theorem passed_request_fields :
    ¬ HidesKeyword (queryRequest "p=on%65rro&q=c+d") ∧
      ∀ var, (0 : UInt8) ∉ var → ∀ queryTempVar text after,
        boaGetVar (queryRequest "p=on%65rro&q=c+d") var queryTempVar = some (some text, after) →
          hasKeyword text = false := by
  have hplain : ¬ HidesKeyword (queryRequest "p=on%65rro&q=c+d") := by
    rintro ⟨s, var, hs, -, -, hhidden⟩
    cases hs
    rw [if_neg (by decide)] at hhidden
    obtain ⟨text, hselects, -, run, hrun, -, k, hk, hsame⟩ := hhidden
    have hvalues : valueTexts (ascii "p=on%65rro&q=c+d") = [ascii "on%65rro", ascii "c+d"] := by
      decide
    have hkeyword : hasKeyword ((visible text).map decodeUnit) = true := by
      rw [hasKeyword_iff]
      exact ⟨k, List.mem_of_mem_filter hk, hsame ▸ (hrun.map decodeUnit).map toLower⟩
    have hmem := selects_mem hselects
    rw [hvalues] at hmem
    rcases List.mem_pair.mp hmem with rfl | rfl
    · exact absurd hkeyword (by decide)
    · exact absurd hkeyword (by decide)
  exact ⟨hplain, (passed_request_iff (by decide)).mpr hplain⟩

end AttackCheck
