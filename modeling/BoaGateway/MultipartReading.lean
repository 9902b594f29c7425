import BoaGateway.FormReading

/-!
# Reading multipart bodies

Which parts `getcgiparam_multipart` takes for a variable, and when it delivers the value of the
part that has the variable's name.
-/

namespace MultipartReading

open ByteBlocks Texts Occurrences CgiParams FormEncoding FormReading

/-- The first place where the variable's name stands in the headers of a part, from the name's
opening quote on, has the end of a name behind it. -/
def partTaken (param : Bytes) (f : Part) : Bool :=
  match cutFirst param f.named with
  | none => false
  | some (_, behind) => (behind ++ f.value).head?.any endsName

theorem namesParam_eq {param : Bytes} (hlen : param.length ≤ 127) (f : Part) (more : Bytes) :
    namesParam (f.head ++ crlfcrlf) (f.value ++ cr :: more) param = some (partTaken param f) := by
  rw [namesParam, cutFirst_name, partTaken]
  simp only [memstr_of_fits hlen]
  cases cutFirst param f.named with
  | none => rfl
  | some found =>
    obtain ⟨before, behind⟩ := found
    have hread : ¬ (param ++ behind ++ (f.value ++ cr :: more)).length < param.length := by
      simp only [List.length_append]
      omega
    simp only [Option.map_some, if_neg hread]
    rw [List.append_assoc param, List.drop_left, ← List.append_assoc]
    cases hbehind : behind ++ f.value with
    | nil => rfl
    | cons c s => rfl

theorem namesParam_of_long {param : Bytes} (hlong : ¬ param.length ≤ 127)
    (hpart : ¬ SoughtInPart param) (f : Part) (body : Bytes) :
    namesParam (f.head ++ crlfcrlf) body param = none := by
  rw [namesParam, cutFirst_name]
  simp only [memstr_of_long hlong hpart]

theorem multipartLoop_round {boundary start : Bytes} (hstart : start ≠ []) (hb : boundary ≠ [])
    (maxlen : Nat) (param : Bytes) :
    multipartLoop maxlen boundary param start =
      match cutFirst boundary start with
      | none => some none
      | some (_, part) =>
        match cutFirst crlfcrlf part with
        | none => multipartLoop maxlen boundary param part
        | some (headers, body) =>
          match namesParam (headers ++ crlfcrlf) body param with
          | none => none
          | some false => multipartLoop maxlen boundary param body
          | some true =>
            match cutFirst boundary body with
            | none => some none
            | some (value, _) =>
              if value.length < 2 then none
              else if value.length - 2 < maxlen then some (some (value.take (value.length - 2)))
              else some none := by
  rw [multipartLoop, if_neg hstart]
  split <;> rename_i hfound <;> rw [hfound]
  dsimp only
  split
  · rename_i hend
    rw [hend, dif_neg hb]
  · rename_i hend
    rw [hend]
    all_goals rfl

section Delimiter
variable (b : Boundary)

theorem delimiter_ne_nil : b.delimiter ≠ [] := by
  simp [Boundary.delimiter, ascii]

theorem cr_not_mem_delimiter : cr ∉ b.delimiter := by
  rw [Boundary.delimiter, List.mem_append]
  rintro (h | h)
  · exact absurd h (by decide)
  · exact b.no_cr h

/-- Behind a value and its line end the delimiter is found. -/
theorem cutFirst_value {value : Bytes} (hvalue : ¬ b.delimiter <:+: value) (rest : Bytes) :
    cutFirst b.delimiter (value ++ cr :: lf :: (b.delimiter ++ rest)) =
      some (value ++ [cr, lf], rest) := by
  have hlf : cutFirst b.delimiter ([lf] ++ (b.delimiter ++ rest)) = some ([lf], rest) := by
    have hskip : cutFirst b.delimiter ([lf] ++ (b.delimiter ++ rest)) =
        (cutFirst b.delimiter (b.delimiter ++ rest)).map fun q => ([lf] ++ q.1, q.2) :=
      cutFirst_skip (by decide) (b.delimiter ++ rest)
    rw [hskip, cutFirst_self_append]
    rfl
  rw [cutFirst_of_not_occurs (delimiter_ne_nil b) (cr_not_mem_delimiter b)
    (cutFirst_eq_none_iff.mpr hvalue), ← List.singleton_append (x := lf), hlf]
  rfl

/-- Where there is no empty line there is no part. -/
theorem multipartLoop_none {s : Bytes} (hs : ¬ crlfcrlf <:+: s) (maxlen : Nat) (param : Bytes) :
    multipartLoop maxlen b.delimiter param s = some none := by
  induction hsize : s.length using Nat.strong_induction_on generalizing s with
  | _ size ih =>
    by_cases hstart : s = []
    · rw [multipartLoop, if_pos hstart]
    · rw [multipartLoop_round hstart (delimiter_ne_nil b)]
      cases hfound : cutFirst b.delimiter s with
      | none => rfl
      | some found =>
        obtain ⟨before, part⟩ := found
        have hpart : ¬ crlfcrlf <:+: part := by
          rintro ⟨u, v, rfl⟩
          apply hs
          rw [cutFirst_eq_some hfound]
          exact ⟨before ++ (b.delimiter ++ u), v, by simp⟩
        have hshort := (cutFirst_behind (delimiter_ne_nil b) hfound).2
        simp only [cutFirst_eq_none_iff.mpr hpart]
        exact ih part.length (hsize ▸ hshort) hpart rfl

/-- What is found of the next part, behind bytes in front of which the delimiter does not
stand. -/
theorem multipartLoop_part {u : Bytes}
    (hu : ∀ rest, cutFirst b.delimiter (u ++ (b.delimiter ++ rest)) = some (u, rest))
    (f : Part) (fs : List Part) (maxlen : Nat) (param : Bytes) :
    multipartLoop maxlen b.delimiter param (u ++ multipartEncode b.delimiter (f :: fs)) =
      match namesParam (f.head ++ crlfcrlf)
        (f.value ++ cr :: lf :: multipartEncode b.delimiter fs) param with
      | none => none
      | some false =>
        multipartLoop maxlen b.delimiter param
          (f.value ++ cr :: lf :: multipartEncode b.delimiter fs)
      | some true =>
        match cutFirst b.delimiter (f.value ++ cr :: lf :: multipartEncode b.delimiter fs) with
        | none => some none
        | some (value, _) =>
          if value.length < 2 then none
          else if value.length - 2 < maxlen then some (some (value.take (value.length - 2)))
          else some none := by
  have hstart : u ++ multipartEncode b.delimiter (f :: fs) ≠ [] := by
    simp [multipartEncode, delimiter_ne_nil b]
  rw [multipartLoop_round hstart (delimiter_ne_nil b), multipartEncode, hu]
  dsimp only
  rw [cutFirst_head]

theorem multipartEncode_delimiter (parts : List Part) :
    ∃ rest, multipartEncode b.delimiter parts = b.delimiter ++ rest := by
  cases parts with
  | nil => exact ⟨_, rfl⟩
  | cons f fs => exact ⟨_, rfl⟩

theorem multipartLoop_nil {u : Bytes}
    (hu : ∀ rest, cutFirst b.delimiter (u ++ (b.delimiter ++ rest)) = some (u, rest))
    (maxlen : Nat) (param : Bytes) :
    multipartLoop maxlen b.delimiter param (u ++ multipartEncode b.delimiter []) = some none := by
  have hstart : u ++ multipartEncode b.delimiter [] ≠ [] := by
    simp [multipartEncode, delimiter_ne_nil b]
  have hend : cutFirst crlfcrlf (ascii "--\r\n") = none := by decide
  rw [multipartLoop_round hstart (delimiter_ne_nil b), multipartEncode, hu]
  simp only [hend]
  exact multipartLoop_none b (cutFirst_eq_none_iff.mp hend) maxlen param

/-- The loop delivers the value of the first part that is taken for the variable. -/
theorem multipartLoop_eq {u : Bytes} {parts : List Part} {maxlen : Nat} {param : Bytes}
    (hlen : param.length ≤ 127)
    (hu : ∀ rest, cutFirst b.delimiter (u ++ (b.delimiter ++ rest)) = some (u, rest))
    (hvalues : ∀ f ∈ parts, ¬ b.delimiter <:+: f.value)
    (hfit : ∀ f ∈ parts, f.value.length < maxlen) :
    multipartLoop maxlen b.delimiter param (u ++ multipartEncode b.delimiter parts) =
      some ((parts.find? (partTaken param)).map Part.value) := by
  induction parts generalizing u with
  | nil => exact multipartLoop_nil b hu maxlen param
  | cons f fs ih =>
    have hvalue := hvalues f List.mem_cons_self
    rw [multipartLoop_part b hu, namesParam_eq hlen]
    cases htaken : partTaken param f with
    | false =>
      have hnext : ∀ rest, cutFirst b.delimiter ((f.value ++ [cr, lf]) ++ (b.delimiter ++ rest)) =
          some (f.value ++ [cr, lf], rest) := by
        intro rest
        rw [List.append_assoc]
        exact cutFirst_value b hvalue rest
      have hrest := ih hnext (fun g hg => hvalues g (List.mem_cons_of_mem f hg))
        (fun g hg => hfit g (List.mem_cons_of_mem f hg))
      rw [List.find?_cons_of_neg (by simp [htaken]), ← hrest, List.append_assoc]
      rfl
    | true =>
      obtain ⟨rest, hrest⟩ := multipartEncode_delimiter b fs
      rw [List.find?_cons_of_pos htaken]
      simp only [hrest, cutFirst_value b hvalue rest]
      rw [if_neg (by simp), if_pos (by simpa using hfit f List.mem_cons_self)]
      simp

end Delimiter

/-- The value of the first part of a name. -/
def partValue (parts : List Part) (param : Bytes) : Option Bytes :=
  (parts.find? fun f => f.name == param).map Part.value

/-- The part that is taken for the variable first has the value of the one that has its name. A
name that is longer than the body is not searched, nor is one where there is no part; a name that
is searched must fit `memstr`. -/
def MultipartReads (b : Boundary) (parts : List Part) (param : Bytes) : Prop :=
  parts = [] ∨ (multipartEncode b.delimiter parts).length < param.length ∨
    param.length ≤ 127 ∧ (parts.find? (partTaken param)).map Part.value = partValue parts param

theorem getcgiparamMultipart_search (b : Boundary) (maxlen : Nat) (query param : Bytes) :
    getcgiparamMultipart maxlen b.contentType query param =
      if query.length < param.length then some none
      else multipartLoop maxlen b.delimiter param query := by
  have hfirst : cutFirst (ascii "boundary=") (ascii "multipart/form-data; boundary=") =
      some (ascii "multipart/form-data; ", []) := by decide
  have htext : b.text.takeWhile (fun c => c != semicolon) = b.text := by
    rw [List.takeWhile_eq_self_iff]
    intro c hc
    rw [bne_iff_ne]
    rintro rfl
    exact b.no_semicolon hc
  rw [getcgiparamMultipart, Boundary.contentType, cutFirst_append hfirst]
  simp only [List.nil_append, htext, if_neg (Nat.not_lt_of_ge b.length_le)]
  rfl

theorem partTaken_length {param : Bytes} {f : Part} (h : partTaken param f = true) :
    param.length ≤ f.named.length := by
  by_contra hlong
  have hcut : cutFirst param f.named = none := by
    rw [cutFirst_eq_none_iff]
    exact fun hinfix => hlong hinfix.length_le
  rw [partTaken, hcut] at h
  cases h

theorem named_length_lt {b : Boundary} {parts : List Part} {f : Part} (hf : f ∈ parts) :
    f.named.length < (multipartEncode b.delimiter parts).length := by
  induction parts with
  | nil => cases hf
  | cons g parts ih =>
    simp only [multipartEncode, List.length_append, List.length_cons]
    rcases List.mem_cons.mp hf with rfl | hf
    · simp only [Part.head, Part.named, headLines, List.flatMap_cons, List.length_append,
        List.length_cons]
      omega
    · have hlen := ih hf
      omega

/-- A name that is longer than the body is no part's. -/
theorem partValue_of_short {b : Boundary} {parts : List Part} {param : Bytes}
    (hshort : (multipartEncode b.delimiter parts).length < param.length) :
    partValue parts param = none := by
  have hnamed : (parts.find? fun f => f.name == param) = none := by
    rw [List.find?_eq_none]
    intro f hf hname
    have hlen := named_length_lt (b := b) hf
    have hle := length_le_escapeName f.name
    rw [beq_iff_eq.mp hname] at hle
    rw [Part.named, Part.quoted, beq_iff_eq.mp hname] at hlen
    simp only [List.length_append, List.length_cons] at hlen
    omega
  rw [partValue, hnamed]
  rfl

theorem getcgiparamMultipart_reads {b : Boundary} {parts : List Part} {maxlen : Nat}
    (hvalues : ∀ f ∈ parts, ¬ b.delimiter <:+: f.value)
    (hfit : ∀ f ∈ parts, f.value.length < maxlen) (param : Bytes) :
    (MultipartReads b parts param →
        getcgiparamMultipart maxlen b.contentType (multipartEncode b.delimiter parts) param =
          some (partValue parts param)) ∧
      (getcgiparamMultipart maxlen b.contentType (multipartEncode b.delimiter parts) param =
          some (partValue parts param) → MultipartReads b parts param ∨ SoughtInPart param) := by
  have hstart : ∀ rest, cutFirst b.delimiter ([] ++ (b.delimiter ++ rest)) = some ([], rest) :=
    cutFirst_self_append b.delimiter
  rw [getcgiparamMultipart_search]
  by_cases hshort : (multipartEncode b.delimiter parts).length < param.length
  · rw [if_pos hshort, partValue_of_short hshort]
    exact ⟨fun _ => rfl, fun _ => Or.inl (Or.inr (Or.inl hshort))⟩
  rw [if_neg hshort]
  cases parts with
  | nil =>
    have hloop := multipartLoop_nil b hstart maxlen param
    rw [List.nil_append] at hloop
    rw [hloop]
    exact ⟨fun _ => rfl, fun _ => Or.inl (Or.inl rfl)⟩
  | cons f fs =>
    by_cases hlen : param.length ≤ 127
    · have hloop := multipartLoop_eq b hlen hstart hvalues hfit
      rw [List.nil_append] at hloop
      rw [hloop, Option.some_inj]
      constructor
      · rintro (hnil | h | ⟨-, htaken⟩)
        · cases hnil
        · exact absurd h hshort
        · exact htaken
      · intro htaken
        exact Or.inl (Or.inr (Or.inr ⟨hlen, htaken⟩))
    · constructor
      · rintro (hnil | h | ⟨h, -⟩)
        · cases hnil
        · exact absurd h hshort
        · exact absurd h hlen
      · intro hvalue
        right
        by_contra hpart
        have hloop := multipartLoop_part b hstart f fs maxlen param
        rw [namesParam_of_long hlen hpart, List.nil_append] at hloop
        rw [hloop] at hvalue
        cases hvalue

def isPlain (avoided s : Bytes) : Bool := s.all fun c => !avoided.contains c

theorem not_mem_of_isPlain {avoided s : Bytes} (h : isPlain avoided s = true) :
    ∀ c ∈ s, c ∉ avoided := by
  intro c hc hmem
  have hplain := List.all_eq_true.mp h c hc
  simp [hmem] at hplain

/-- A field without reserved bytes. -/
def plainField (name value : Bytes) (hname : isPlain (reservedBytes ++ separators) name = true)
    (hvalue : isPlain reservedBytes value = true) : UrlField where
  name := name
  value := value
  nameText := name
  valueText := value
  name_free := fun c hc hmem =>
    not_mem_of_isPlain hname c hmem (List.mem_append_right reservedBytes hc)
  name_encoded := UrlEncoded.of_plain fun c hc hmem =>
    not_mem_of_isPlain hname c hc (List.mem_append_left separators hmem)
  value_encoded := UrlEncoded.of_plain (not_mem_of_isPlain hvalue)

def plainPart (name value : Bytes) (hname : isPlain separators name = true) : Part where
  name := name
  params := []
  headers := []
  value := value
  name_free := fun c hc hmem => not_mem_of_isPlain hname c hmem hc
  params_free := List.not_mem_nil
  headers_free := fun _ hh => absurd hh List.not_mem_nil

def shortBoundary : Boundary where
  text := ascii "X"
  length_le := by decide
  no_semicolon := by decide
  no_cr := by decide

def nestedFields : List UrlField :=
  [plainField (ascii "abab") (ascii "1") (by decide) (by decide),
    plainField (ascii "ab") (ascii "2") (by decide) (by decide)]

def nestedParts : List Part :=
  [plainPart (ascii "xab") (ascii "1") (by decide), plainPart (ascii "ab") (ascii "2") (by decide)]

end MultipartReading
