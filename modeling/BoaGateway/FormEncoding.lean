import BoaGateway.CgiParams

/-!
# Encoded forms

The two encodings of a list of form fields. In an encoded query every reserved byte of a name
or a value is percent-encoded and a blank is a plus sign; other bytes may be encoded as well.
A part of a multipart body may have parameters behind its name, such as a file name, and more
header lines.
-/

namespace FormEncoding

open ByteBlocks Texts Paths Occurrences CgiParams

/-- The bytes that no name of a field contains. -/
def separators : Bytes := [amp, equals, quote, semicolon, apostrophe]

def reservedBytes : Bytes := [0, blank, percent, amp, plus, equals]

/-- A text and how it is written. -/
inductive UrlEncoded : Bytes → Bytes → Prop where
  | nil : UrlEncoded [] []
  | plain {c : UInt8} {s t : Bytes} (hc : c ∉ reservedBytes) (h : UrlEncoded s t) :
      UrlEncoded (c :: s) (c :: t)
  | space {s t : Bytes} (h : UrlEncoded s t) : UrlEncoded (blank :: s) (plus :: t)
  | escape {d e : UInt8} {s t : Bytes} (hd : isHex d = true) (he : isHex e = true)
      (h : UrlEncoded s t) :
      UrlEncoded ((16 * hexValue d + hexValue e) :: s) (percent :: d :: e :: t)

structure UrlField where
  name : Bytes
  value : Bytes
  nameText : Bytes
  valueText : Bytes
  name_free : ∀ c ∈ separators, c ∉ name
  name_encoded : UrlEncoded name nameText
  value_encoded : UrlEncoded value valueText

def UrlField.text (f : UrlField) : Bytes := f.nameText ++ equals :: f.valueText

def urlEncode : List UrlField → Bytes
  | [] => []
  | [f] => f.text
  | f :: g :: fs => f.text ++ amp :: urlEncode (g :: fs)

theorem UrlEncoded.of_plain {s : Bytes} (h : ∀ c ∈ s, c ∉ reservedBytes) : UrlEncoded s s := by
  induction s with
  | nil => exact .nil
  | cons c s ih =>
    exact .plain (h c List.mem_cons_self) (ih fun d hd => h d (List.mem_cons_of_mem c hd))

theorem UrlEncoded.no_separator {s t : Bytes} (h : UrlEncoded s t) : amp ∉ t ∧ equals ∉ t := by
  induction h with
  | nil => simp
  | plain hc h ih =>
    simp only [reservedBytes, List.mem_cons, not_or] at hc
    constructor
    · rintro (_ | ⟨_, hmem⟩)
      · exact absurd rfl hc.2.2.2.1
      · exact ih.1 hmem
    · rintro (_ | ⟨_, hmem⟩)
      · exact absurd rfl hc.2.2.2.2.2.1
      · exact ih.2 hmem
  | space h ih =>
    simp only [List.mem_cons, not_or]
    exact ⟨⟨by decide, ih.1⟩, by decide, ih.2⟩
  | escape hd he h ih =>
    simp only [List.mem_cons, not_or]
    have hne : ∀ c : UInt8, isHex c = true → amp ≠ c ∧ equals ≠ c := by
      intro c hc
      constructor
      · rintro rfl
        exact absurd hc (by decide)
      · rintro rfl
        exact absurd hc (by decide)
    exact ⟨⟨by decide, (hne _ hd).1, (hne _ he).1, ih.1⟩,
      by decide, (hne _ hd).2, (hne _ he).2, ih.2⟩

theorem UrlEncoded.length_le {s t : Bytes} (h : UrlEncoded s t) : s.length ≤ t.length := by
  induction h with
  | nil => exact Nat.le_refl 0
  | plain hc h ih => exact Nat.succ_le_succ ih
  | space h ih => exact Nat.succ_le_succ ih
  | escape hd he h ih =>
    simp only [List.length_cons]
    omega

theorem UrlEncoded.eq_nil_iff {s t : Bytes} (h : UrlEncoded s t) : t = [] ↔ s = [] := by
  cases h <;> simp

/-- What is no percent-encoding is copied byte by byte. -/
theorem copyValue_cons {c : UInt8} (hzero : c ≠ 0) (hamp : c ≠ amp) (hpercent : c ≠ percent)
    (y : Nat) (s : Bytes) :
    copyValue (y + 1) (c :: s) = (if c = plus then blank else c) :: copyValue y s := by
  have hstop : ¬ (c = 0 ∨ c = amp) := fun h => h.elim hzero hamp
  by_cases hlong : ∃ h l s', s = h :: l :: s'
  · obtain ⟨h, l, s', rfl⟩ := hlong
    rw [copyValue, if_neg hstop, if_neg fun henc => hpercent henc.1]
  · rw [copyValue, if_neg hstop]
    intro h l s' hs
    exact hlong ⟨h, l, s', hs⟩

/-- The copy loop decodes what fits into its room. -/
theorem copyValue_encoded {s t : Bytes} (h : UrlEncoded s t) {y : Nat} (hy : s.length ≤ y) :
    copyValue y t = s := by
  induction h generalizing y with
  | nil => cases y <;> rfl
  | plain hc h ih =>
    obtain ⟨y, rfl⟩ := Nat.exists_eq_add_one_of_ne_zero (Nat.ne_zero_of_lt hy)
    simp only [reservedBytes, List.mem_cons, not_or] at hc
    rw [copyValue_cons hc.1 hc.2.2.2.1 hc.2.2.1, if_neg hc.2.2.2.2.1,
      ih (Nat.le_of_succ_le_succ hy)]
  | space h ih =>
    obtain ⟨y, rfl⟩ := Nat.exists_eq_add_one_of_ne_zero (Nat.ne_zero_of_lt hy)
    rw [copyValue_cons (by decide) (by decide) (by decide), if_pos rfl,
      ih (Nat.le_of_succ_le_succ hy)]
  | escape hd he h ih =>
    obtain ⟨y, rfl⟩ := Nat.exists_eq_add_one_of_ne_zero (Nat.ne_zero_of_lt hy)
    have hstop : ¬ (percent = 0 ∨ percent = amp) := by decide
    rw [copyValue, if_neg hstop]
    simp only [hd, he, and_self, if_true]
    rw [ih (Nat.le_of_succ_le_succ hy)]

def cr : UInt8 := 13
def lf : UInt8 := 10

/-- A field with what follows its name in the first header line, and its other headers. -/
structure Part where
  name : Bytes
  params : Bytes
  headers : List Bytes
  value : Bytes
  name_free : ∀ c ∈ separators, c ∉ name
  params_free : cr ∉ params
  headers_free : ∀ h ∈ headers, h ≠ [] ∧ cr ∉ h

def escapeByte (c : UInt8) : Bytes :=
  if c = cr then ascii "%0D" else if c = lf then ascii "%0A"
  else if c = quote then ascii "%22" else [c]

def escapeName (name : Bytes) : Bytes := name.flatMap escapeByte

def disposition : Bytes := ascii "Content-Disposition: form-data; "

/-- The name in its quotes, and what follows it in the first header line. -/
def Part.quoted (f : Part) : Bytes := quote :: (escapeName f.name ++ quote :: f.params)

def headLines (lines : List Bytes) : Bytes := lines.flatMap fun h => cr :: lf :: h

def Part.head (f : Part) : Bytes :=
  headLines ((disposition ++ (ascii "name=" ++ f.quoted)) :: f.headers)

/-- The headers behind `name=`, with the empty line. -/
def Part.named (f : Part) : Bytes := f.quoted ++ (headLines f.headers ++ crlfcrlf)

def multipartEncode (boundary : Bytes) : List Part → Bytes
  | [] => boundary ++ ascii "--\r\n"
  | f :: fs =>
    boundary ++ (f.head ++ (crlfcrlf ++ (f.value ++ cr :: lf :: multipartEncode boundary fs)))

/-- What a request with a multipart body says of its boundary. -/
structure Boundary where
  text : Bytes
  length_le : text.length ≤ 125
  no_semicolon : semicolon ∉ text
  no_cr : cr ∉ text

def Boundary.contentType (b : Boundary) : Bytes :=
  ascii "multipart/form-data; boundary=" ++ b.text

def Boundary.delimiter (b : Boundary) : Bytes := ascii "--" ++ b.text

theorem cr_not_mem_escapeName (name : Bytes) : cr ∉ escapeName name := by
  rw [escapeName, List.mem_flatMap]
  rintro ⟨c, -, hc⟩
  rw [escapeByte] at hc
  split at hc
  · exact absurd hc (by decide)
  · rename_i hne
    split at hc
    · exact absurd hc (by decide)
    · split at hc
      · exact absurd hc (by decide)
      · exact hne (List.mem_singleton.mp hc).symm

theorem length_le_escapeName (name : Bytes) : name.length ≤ (escapeName name).length := by
  induction name with
  | nil => exact Nat.le_refl 0
  | cons c name ih =>
    have hbyte : 1 ≤ (escapeByte c).length := by
      unfold escapeByte
      split
      · decide
      · split
        · decide
        · split
          · decide
          · exact Nat.le_refl 1
    rw [escapeName, List.flatMap_cons, List.length_append, List.length_cons, ← escapeName]
    omega

theorem cr_not_mem_quoted (f : Part) : cr ∉ f.quoted := by
  rw [Part.quoted, List.mem_cons, List.mem_append, List.mem_cons]
  rintro (h | h | h | h)
  · exact absurd h (by decide)
  · exact cr_not_mem_escapeName f.name h
  · exact absurd h (by decide)
  · exact f.params_free h

/-- Lines that are not empty end at the first empty line. -/
theorem cutFirst_headLines {lines : List Bytes} (h : ∀ l ∈ lines, l ≠ [] ∧ cr ∉ l)
    (rest : Bytes) :
    cutFirst crlfcrlf (headLines lines ++ (crlfcrlf ++ rest)) = some (headLines lines, rest) := by
  induction lines with
  | nil => exact cutFirst_self_append crlfcrlf rest
  | cons l lines ih =>
    obtain ⟨hne, hcr⟩ := h l List.mem_cons_self
    have hrest := ih fun m hm => h m (List.mem_cons_of_mem l hm)
    obtain ⟨c, l', rfl⟩ := List.exists_cons_of_ne_nil hne
    have hc : cr ≠ c := fun hc => hcr (hc ▸ List.mem_cons_self)
    have hlines : headLines ((c :: l') :: lines) ++ (crlfcrlf ++ rest) =
        cr :: lf :: ((c :: l') ++ (headLines lines ++ (crlfcrlf ++ rest))) := by
      simp [headLines]
    have hfirst :
        ¬ crlfcrlf <+: cr :: lf :: ((c :: l') ++ (headLines lines ++ (crlfcrlf ++ rest))) := by
      rw [crlfcrlf, List.cons_prefix_cons, List.cons_prefix_cons, List.cons_append,
        List.cons_prefix_cons]
      rintro ⟨-, -, h, -⟩
      exact hc h
    have hline : cr ∉ lf :: (c :: l') := by
      rintro (_ | ⟨_, hmem⟩)
      exact hcr hmem
    have hskip : cutFirst crlfcrlf ((lf :: (c :: l')) ++ (headLines lines ++ (crlfcrlf ++ rest))) =
        (cutFirst crlfcrlf (headLines lines ++ (crlfcrlf ++ rest))).map fun q =>
          ((lf :: (c :: l')) ++ q.1, q.2) := cutFirst_skip hline _
    rw [hlines, cutFirst_cons_of_not hfirst, ← List.cons_append, hskip, hrest]
    simp [headLines]

theorem cutFirst_head (f : Part) (rest : Bytes) :
    cutFirst crlfcrlf (f.head ++ (crlfcrlf ++ rest)) = some (f.head, rest) := by
  rw [Part.head]
  apply cutFirst_headLines
  intro l hl
  rcases List.mem_cons.mp hl with rfl | hl
  · constructor
    · simp [disposition, ascii]
    · rw [List.mem_append, List.mem_append]
      rintro (h | h | h)
      · exact absurd h (by decide)
      · exact absurd h (by decide)
      · exact cr_not_mem_quoted f h
  · exact f.headers_free l hl

theorem cutFirst_name (f : Part) :
    cutFirst (ascii "name=") (f.head ++ crlfcrlf) = some (cr :: lf :: disposition, f.named) := by
  have hfirst : cutFirst (ascii "name=") (cr :: lf :: (disposition ++ ascii "name=")) =
      some (cr :: lf :: disposition, []) := by decide
  have happend := cutFirst_append hfirst f.named
  have hhead : f.head ++ crlfcrlf = cr :: lf :: (disposition ++ ascii "name=") ++ f.named := by
    simp [Part.head, Part.named, headLines]
  rw [hhead, happend, List.nil_append]

end FormEncoding
