import BoaGateway.CgiParams

/-!
# Submitting a form

How the page script `postTableEncrypt` writes the fields of a form, and how a browser writes
them into the body of the request. A text of the script is the list of its codes, which are
all below 128, and a value is the list of its characters.
-/

namespace FormSubmission

open ByteBlocks Texts Occurrences CgiParams

def isAlnum (c : UInt8) : Bool :=
  (48 ≤ c && c ≤ 57) || (65 ≤ c && c ≤ 90) || (97 ≤ c && c ≤ 122)

def hexDigit (n : UInt8) : UInt8 := if n < 10 then 48 + n else 55 + n

def percentByte (b : UInt8) : Bytes := [percent, hexDigit (b / 16), hexDigit (b % 16)]

def utf8 (v : List Char) : Bytes := v.flatMap String.utf8EncodeChar

/-- The characters that `encodeURIComponent` leaves. -/
def isUnescaped (c : UInt8) : Bool := isAlnum c || (ascii "-_.!~*'()").contains c

def encodeURIComponent (v : List Char) : Bytes :=
  v.flatMap fun c =>
    if c.toNat < 128 ∧ isUnescaped (UInt8.ofNat c.toNat) = true then [UInt8.ofNat c.toNat]
    else (String.utf8EncodeChar c).flatMap percentByte

/-- `replace` of a script, for all places. -/
def replaceAll (t r s : Bytes) : Bytes :=
  match h : cutFirst t s with
  | none => s
  | some (before, behind) => if ht : t = [] then s else before ++ (r ++ replaceAll t r behind)
termination_by s.length
decreasing_by
  have hlen := cutFirst_length h
  have hpos := List.length_pos_iff.mpr ht
  omega

def isWord (c : UInt8) : Bool := isAlnum c || c == 95

/-- A text field of a form, with a name of letters, digits and underscores. -/
structure TextField where
  name : Bytes
  value : List Char
  name_word : name.all isWord = true

def flagName : Bytes := ascii "postSecurityFlag"

def scriptSkips (f : TextField) : Bool :=
  f.name == [] || f.name == flagName || f.name == ascii "csrftoken"

def scriptName (name : Bytes) : Bytes :=
  replaceAll (ascii "]") (ascii "%5D") (replaceAll (ascii "[") (ascii "%5B") name)

def scriptValue (value : List Char) : Bytes :=
  let value := encodeURIComponent value
  let value := replaceAll (ascii "!") (ascii "%21") value
  let value := replaceAll (ascii "'") (ascii "%27") value
  let value := replaceAll (ascii "(") (ascii "%28") value
  let value := replaceAll (ascii ")") (ascii "%29") value
  let value := replaceAll (ascii "~") (ascii "%7E") value
  replaceAll (ascii "%20") (ascii "+") value

/-- `inputVal` of `postTableEncrypt`. -/
def inputVal (fields : List TextField) : Bytes :=
  (fields.filter fun f => !scriptSkips f).flatMap fun f =>
    scriptName f.name ++ equals :: (scriptValue f.value ++ [amp])

/-- Every line break becomes a carriage return and a line feed. -/
def normalizeLineBreaks : List Char → List Char
  | [] => []
  | '\r' :: '\n' :: v => '\r' :: '\n' :: normalizeLineBreaks v
  | '\r' :: v => '\r' :: '\n' :: normalizeLineBreaks v
  | '\n' :: v => '\r' :: '\n' :: normalizeLineBreaks v
  | c :: v => c :: normalizeLineBreaks v

/-- The characters that the encoding of forms leaves. -/
def isFormSafe (c : UInt8) : Bool := isAlnum c || (ascii "*-._").contains c

def formByte (b : UInt8) : Bytes :=
  if b = blank then [plus] else if isFormSafe b then [b] else percentByte b

def formEncode (s : Bytes) : Bytes := s.flatMap formByte

def pairText (f : TextField) : Bytes :=
  formEncode f.name ++ equals :: formEncode (utf8 (normalizeLineBreaks f.value))

def serialize : List TextField → Bytes
  | [] => []
  | [f] => pairText f
  | f :: g :: fs => pairText f ++ amp :: serialize (g :: fs)

def decimal (n : Nat) : List Char := (toString n).toList

def flagField (csum : Nat) : TextField where
  name := flagName
  value := decimal csum
  name_word := by decide

/-- The body of the request, with the flag behind the fields. A field without a name is not
sent. -/
def submission (fields : List TextField) (csum : Nat) : Bytes :=
  serialize ((fields ++ [flagField csum]).filter fun f => f.name != [])

theorem utf8_of_ascii {c : Char} (h : c.toNat < 128) :
    String.utf8EncodeChar c = [UInt8.ofNat c.toNat] := by
  have hle : c.val.toNat ≤ 127 := Nat.le_of_lt_succ h
  rw [String.utf8EncodeChar]
  exact if_pos hle

theorem high_byte {n k m : Nat} (hk : 128 ≤ k) (hfit : m + k ≤ 256) (hm : 0 < m) :
    (128 : UInt8) ≤ UInt8.ofNat (n % m + k) := by
  have hlt := Nat.mod_lt n hm
  rw [UInt8.le_iff_toNat_le, UInt8.toNat_ofNat_of_lt' (by simp [UInt8.size]; omega)]
  exact Nat.le_trans hk (Nat.le_add_left k _)

/-- Characters beyond ASCII are written in high bytes. -/
theorem utf8_high {c : Char} (h : ¬ c.toNat < 128) :
    ∀ b ∈ String.utf8EncodeChar c, (128 : UInt8) ≤ b := by
  have hle : ¬ c.val.toNat ≤ 127 := fun hle => h (Nat.lt_succ_of_le hle)
  rw [String.utf8EncodeChar, if_neg hle]
  split
  · intro b hb
    simp only [List.mem_cons, List.not_mem_nil, or_false] at hb
    rcases hb with rfl | rfl
    · exact high_byte (by decide) (by decide) (by decide)
    · exact high_byte (by decide) (by decide) (by decide)
  split
  · intro b hb
    simp only [List.mem_cons, List.not_mem_nil, or_false] at hb
    rcases hb with rfl | rfl | rfl
    · exact high_byte (by decide) (by decide) (by decide)
    · exact high_byte (by decide) (by decide) (by decide)
    · exact high_byte (by decide) (by decide) (by decide)
  · intro b hb
    simp only [List.mem_cons, List.not_mem_nil, or_false] at hb
    rcases hb with rfl | rfl | rfl | rfl
    · exact high_byte (by decide) (by decide) (by decide)
    · exact high_byte (by decide) (by decide) (by decide)
    · exact high_byte (by decide) (by decide) (by decide)
    · exact high_byte (by decide) (by decide) (by decide)

theorem replaceAll_round {t : Bytes} (ht : t ≠ []) (r s : Bytes) :
    replaceAll t r s =
      match cutFirst t s with
      | none => s
      | some (before, behind) => before ++ (r ++ replaceAll t r behind) := by
  rw [replaceAll]
  split <;> rename_i hcut <;> rw [hcut]
  rw [dif_neg ht]

theorem replaceAll_nil {t : Bytes} (ht : t ≠ []) (r : Bytes) : replaceAll t r [] = [] := by
  rw [replaceAll_round ht, cutFirst_nil ht]

theorem replaceAll_of_starts {t s : Bytes} {a : UInt8} (ht : t ≠ []) (h : t <+: a :: s)
    (r : Bytes) : replaceAll t r (a :: s) = r ++ replaceAll t r ((a :: s).drop t.length) := by
  rw [replaceAll_round ht, cutFirst_cons_of_starts h]
  rfl

theorem replaceAll_of_not {t s : Bytes} {a : UInt8} (ht : t ≠ []) (h : ¬ t <+: a :: s)
    (r : Bytes) : replaceAll t r (a :: s) = a :: replaceAll t r s := by
  rw [replaceAll_round ht, replaceAll_round ht r s, cutFirst_cons_of_not h]
  cases cutFirst t s with
  | none => rfl
  | some found => rfl

theorem replaceAll_singleton (c : UInt8) (r s : Bytes) :
    replaceAll [c] r s = s.flatMap fun x => if x = c then r else [x] := by
  induction s with
  | nil => exact replaceAll_nil (List.cons_ne_nil c []) r
  | cons x s ih =>
    rw [List.flatMap_cons]
    by_cases hx : x = c
    · have hstarts : [c] <+: x :: s := ⟨s, by rw [hx]; rfl⟩
      rw [replaceAll_of_starts (List.cons_ne_nil c []) hstarts, if_pos hx, ← ih]
      rfl
    · have hnot : ¬ [c] <+: x :: s := fun h => hx (List.cons_prefix_cons.mp h).1.symm
      rw [replaceAll_of_not (List.cons_ne_nil c []) hnot, if_neg hx, ih]
      rfl

theorem flatMap_unchanged {c : UInt8} {s : Bytes} (hc : c ∉ s) (r : Bytes) :
    (s.flatMap fun x => if x = c then r else [x]) = s := by
  induction s with
  | nil => rfl
  | cons x s ih =>
    rw [List.mem_cons, not_or] at hc
    rw [List.flatMap_cons, if_neg (Ne.symm hc.1), ih hc.2]
    rfl

/-- Sixteen digits, letters and figures. -/
theorem hexDigit_cases {n : UInt8} (h : n < 16) :
    isAlnum (hexDigit n) = true ∧ (hexDigit n = 50 → n = 2) ∧ (hexDigit n = 48 → n = 0) := by
  have hall : ∀ k : Fin 16, isAlnum (hexDigit (UInt8.ofNat k)) = true ∧
      (hexDigit (UInt8.ofNat k) = 50 → UInt8.ofNat k = 2) ∧
      (hexDigit (UInt8.ofNat k) = 48 → UInt8.ofNat k = 0) := by
    decide
  have hn := hall ⟨n.toNat, UInt8.lt_iff_toNat_lt.mp h⟩
  simpa using hn

theorem div_lt_sixteen (b : UInt8) : b / 16 < 16 := by
  have hb := b.toNat_lt
  rw [UInt8.lt_iff_toNat_lt, UInt8.toNat_div]
  exact Nat.div_lt_of_lt_mul hb

theorem mod_lt_sixteen (b : UInt8) : b % 16 < 16 := by
  rw [UInt8.lt_iff_toNat_lt, UInt8.toNat_mod]
  exact Nat.mod_lt _ (by decide)

/-- Only a blank is written as `%20`. -/
theorem percentByte_eq_blank {b : UInt8} (h : percentByte b = ascii "%20") : b = blank := by
  obtain ⟨hhigh, hlow⟩ : hexDigit (b / 16) = 50 ∧ hexDigit (b % 16) = 48 := by
    simpa [percentByte, ascii, percent] using h
  have hdiv := congrArg UInt8.toNat ((hexDigit_cases (div_lt_sixteen b)).2.1 hhigh)
  have hmod := congrArg UInt8.toNat ((hexDigit_cases (mod_lt_sixteen b)).2.2 hlow)
  rw [UInt8.toNat_div] at hdiv
  rw [UInt8.toNat_mod] at hmod
  change b.toNat / 16 = 2 at hdiv
  change b.toNat % 16 = 0 at hmod
  apply UInt8.toNat_inj.mp
  change b.toNat = 32
  omega

theorem isAlnum_lt {c : UInt8} (h : isAlnum c = true) : c < 128 := by
  simp only [isAlnum, Bool.or_eq_true, Bool.and_eq_true, decide_eq_true_eq] at h
  rcases h with (h | h) | h
  · exact UInt8.lt_of_le_of_lt h.2 (by decide)
  · exact UInt8.lt_of_le_of_lt h.2 (by decide)
  · exact UInt8.lt_of_le_of_lt h.2 (by decide)

theorem isUnescaped_lt {c : UInt8} (h : isUnescaped c = true) : c < 128 := by
  rw [isUnescaped, Bool.or_eq_true, List.contains_iff_mem] at h
  rcases h with h | h
  · exact isAlnum_lt h
  · have hall : (ascii "-_.!~*'()").all (· < 128) = true := by decide
    exact of_decide_eq_true (List.all_eq_true.mp hall c h)

/-- What `encodeURIComponent` makes of the bytes of a character. -/
def uriByte (b : UInt8) : Bytes := if isUnescaped b then [b] else percentByte b

theorem encodeURIComponent_eq (v : List Char) :
    encodeURIComponent v = (utf8 v).flatMap uriByte := by
  rw [encodeURIComponent, utf8, List.flatMap_assoc]
  congr 1
  funext c
  by_cases hascii : c.toNat < 128
  · simp only [utf8_of_ascii hascii, List.flatMap_cons, List.flatMap_nil, List.append_nil,
      uriByte, hascii, true_and]
  · rw [if_neg fun h => hascii h.1]
    apply List.flatMap_congr
    intro b hb
    have hplain : isUnescaped b ≠ true := fun h =>
      absurd (isUnescaped_lt h) (UInt8.not_lt.mpr (utf8_high hascii b hb))
    rw [uriByte, if_neg hplain]

/-- A byte before blanks become plus signs. -/
def markByte (b : UInt8) : Bytes := if isFormSafe b then [b] else percentByte b

/-- The characters that the script writes as codes. -/
def marks : List (UInt8 × Bytes) :=
  [(33, ascii "%21"), (39, ascii "%27"), (40, ascii "%28"), (41, ascii "%29"), (126, ascii "%7E")]

def replaceMark (s : Bytes) (m : UInt8 × Bytes) : Bytes := replaceAll [m.1] m.2 s

theorem replaceMark_eq (s : Bytes) (m : UInt8 × Bytes) :
    replaceMark s m = s.flatMap fun x => if x = m.1 then m.2 else [x] := replaceAll_singleton _ _ _

theorem foldl_replaceMark (f : UInt8 → Bytes) (ms : List (UInt8 × Bytes)) (s : Bytes) :
    ms.foldl replaceMark (s.flatMap f) = s.flatMap fun b => ms.foldl replaceMark (f b) := by
  induction ms generalizing f with
  | nil => rfl
  | cons m ms ih =>
    rw [List.foldl_cons, replaceMark_eq, List.flatMap_assoc]
    rw [ih]
    congr 1
    funext b
    rw [List.foldl_cons, replaceMark_eq]

theorem foldl_replaceMark_unchanged {ms : List (UInt8 × Bytes)} {s : Bytes}
    (h : ∀ m ∈ ms, m.1 ∉ s) : ms.foldl replaceMark s = s := by
  induction ms with
  | nil => rfl
  | cons m ms ih =>
    rw [List.foldl_cons, replaceMark_eq, flatMap_unchanged (h m List.mem_cons_self)]
    exact ih fun m' hm' => h m' (List.mem_cons_of_mem m hm')

theorem percentByte_plain (b : UInt8) : ∀ x ∈ percentByte b, x = percent ∨ isAlnum x = true := by
  intro x hx
  simp only [percentByte, List.mem_cons, List.not_mem_nil, or_false] at hx
  rcases hx with rfl | rfl | rfl
  · exact Or.inl rfl
  · exact Or.inr (hexDigit_cases (div_lt_sixteen b)).1
  · exact Or.inr (hexDigit_cases (mod_lt_sixteen b)).1

theorem marks_plain : ∀ m ∈ marks, m.1 ≠ percent ∧ isAlnum m.1 = false := by decide

theorem markByte_of_mark : ∀ m ∈ marks, marks.foldl replaceMark (uriByte m.1) = markByte m.1 := by
  have hstep : replaceMark = fun s m => s.flatMap fun x => if x = m.1 then m.2 else [x] :=
    funext fun s => funext fun m => replaceMark_eq s m
  rw [hstep]
  decide

theorem markByte_eq (b : UInt8) : marks.foldl replaceMark (uriByte b) = markByte b := by
  by_cases hmark : ∃ m ∈ marks, m.1 = b
  · obtain ⟨m, hm, rfl⟩ := hmark
    exact markByte_of_mark m hm
  · have hsame : isUnescaped b = isFormSafe b := by
      simp only [marks, List.mem_cons, List.not_mem_nil, or_false, exists_eq_or_imp,
        exists_eq_left, not_or] at hmark
      have huri : ascii "-_.!~*'()" = [45, 95, 46, 33, 126, 42, 39, 40, 41] := by decide
      have hform : ascii "*-._" = [42, 45, 46, 95] := by decide
      have hlist : (ascii "-_.!~*'()").contains b = (ascii "*-._").contains b := by
        rw [Bool.eq_iff_iff, List.contains_iff_mem, List.contains_iff_mem, huri, hform]
        simp only [List.mem_cons, List.not_mem_nil, or_false]
        grind
      rw [isUnescaped, isFormSafe, hlist]
    rw [uriByte, markByte, hsame]
    apply foldl_replaceMark_unchanged
    intro m hm hmem
    split at hmem
    · exact hmark ⟨m, hm, List.mem_singleton.mp hmem⟩
    · obtain ⟨hne, hplain⟩ := marks_plain m hm
      rcases percentByte_plain b m.1 hmem with h | h
      · exact hne h
      · rw [hplain] at h
        cases h

/-- Where no percent sign stands, no blank is written. -/
theorem replaceAll_skip {a : UInt8} (ha : a ≠ percent) (s : Bytes) :
    replaceAll (ascii "%20") (ascii "+") (a :: s) =
      a :: replaceAll (ascii "%20") (ascii "+") s := by
  have hnot : ¬ ascii "%20" <+: a :: s := by
    intro h
    have hcons : percent :: ascii "20" <+: a :: s := h
    exact ha (List.cons_prefix_cons.mp hcons).1.symm
  exact replaceAll_of_not (by decide) hnot (ascii "+")

theorem percentByte_digits (b : UInt8) :
    hexDigit (b / 16) ≠ percent ∧ hexDigit (b % 16) ≠ percent := by
  have hpercent : isAlnum percent = false := by decide
  constructor
  · intro h
    have halnum := (hexDigit_cases (div_lt_sixteen b)).1
    rw [h, hpercent] at halnum
    cases halnum
  · intro h
    have halnum := (hexDigit_cases (mod_lt_sixteen b)).1
    rw [h, hpercent] at halnum
    cases halnum

/-- The script writes a value as the encoding of forms does. -/
theorem scriptValue_eq (v : List Char) : scriptValue v = formEncode (utf8 v) := by
  have hmarks : scriptValue v =
      replaceAll (ascii "%20") (ascii "+") (marks.foldl replaceMark (encodeURIComponent v)) := rfl
  rw [hmarks, encodeURIComponent_eq, foldl_replaceMark]
  simp only [markByte_eq]
  generalize utf8 v = w
  induction w with
  | nil => exact replaceAll_nil (by decide) _
  | cons b w ih =>
    rw [List.flatMap_cons, formEncode, List.flatMap_cons, ← formEncode, ← ih]
    by_cases hblank : b = blank
    · have hstarts : ascii "%20" <+: percent :: (ascii "20" ++ w.flatMap markByte) :=
        List.prefix_append (ascii "%20") _
      rw [hblank]
      exact replaceAll_of_starts (by decide) hstarts (ascii "+")
    rw [formByte, if_neg hblank, markByte]
    split
    · rename_i hsafe
      have hne : b ≠ percent := by
        rintro rfl
        exact absurd hsafe (by decide)
      exact replaceAll_skip hne _
    · have hnot : ¬ ascii "%20" <+:
          percent :: hexDigit (b / 16) :: hexDigit (b % 16) :: w.flatMap markByte := by
        intro h
        have hfront : percentByte b <+:
            percent :: hexDigit (b / 16) :: hexDigit (b % 16) :: w.flatMap markByte :=
          ⟨w.flatMap markByte, rfl⟩
        have hsame := List.prefix_of_prefix_length_le hfront h (Nat.le_refl 3)
        exact hblank (percentByte_eq_blank (hsame.eq_of_length rfl))
      obtain ⟨hhigh, hlow⟩ := percentByte_digits b
      rw [percentByte, List.cons_append, List.cons_append, List.cons_append, List.nil_append]
      rw [replaceAll_of_not (by decide) hnot, replaceAll_skip hhigh, replaceAll_skip hlow]
      rfl

theorem word_plain (f : TextField) {c : UInt8} (hc : isWord c = false) : c ∉ f.name := by
  intro hmem
  have hword := List.all_eq_true.mp f.name_word c hmem
  rw [hc] at hword
  cases hword

theorem scriptName_eq (f : TextField) : scriptName f.name = f.name := by
  have hopen : (91 : UInt8) ∉ f.name := word_plain f (by decide)
  have hclose : (93 : UInt8) ∉ f.name := word_plain f (by decide)
  have hfirst : replaceAll (ascii "[") (ascii "%5B") f.name = f.name :=
    (replaceAll_singleton 91 _ _).trans (flatMap_unchanged hopen _)
  rw [scriptName, hfirst]
  exact (replaceAll_singleton 93 _ _).trans (flatMap_unchanged hclose _)

theorem formByte_safe {b : UInt8} (h : isFormSafe b = true) : formByte b = [b] := by
  have hne : b ≠ blank := by
    rintro rfl
    exact absurd h (by decide)
  rw [formByte, if_neg hne, if_pos h]

theorem formEncode_safe {s : Bytes} (h : ∀ c ∈ s, isFormSafe c = true) : formEncode s = s := by
  induction s with
  | nil => rfl
  | cons c s ih =>
    rw [formEncode, List.flatMap_cons, ← formEncode, formByte_safe (h c List.mem_cons_self),
      ih fun d hd => h d (List.mem_cons_of_mem c hd)]
    rfl

theorem formEncode_name (f : TextField) : formEncode f.name = f.name := by
  apply formEncode_safe
  intro c hc
  have hword := List.all_eq_true.mp f.name_word c hc
  rw [isWord, Bool.or_eq_true, beq_iff_eq] at hword
  rcases hword with halnum | rfl
  · rw [isFormSafe, halnum, Bool.true_or]
  · decide

/-- A byte of an encoded text. -/
theorem formByte_mem {b x : UInt8} (h : x ∈ formByte b) :
    x = plus ∨ x = percent ∨ isFormSafe x = true := by
  rw [formByte] at h
  split at h
  · exact Or.inl (List.mem_singleton.mp h)
  split at h
  · rename_i hsafe
    rw [List.mem_singleton.mp h]
    exact Or.inr (Or.inr hsafe)
  · rcases percentByte_plain b x h with h | h
    · exact Or.inr (Or.inl h)
    · exact Or.inr (Or.inr (by rw [isFormSafe, h, Bool.true_or]))

theorem not_mem_formEncode {c : UInt8} (hplus : c ≠ plus) (hpercent : c ≠ percent)
    (hsafe : isFormSafe c = false) (s : Bytes) : c ∉ formEncode s := by
  intro h
  obtain ⟨b, -, hb⟩ := List.mem_flatMap.mp h
  rcases formByte_mem hb with h | h | h
  · exact hplus h
  · exact hpercent h
  · rw [hsafe] at h
    cases h

theorem amp_formEncode (s : Bytes) : amp ∉ formEncode s :=
  not_mem_formEncode (by decide) (by decide) (by decide) s

theorem isFormSafe_lt {c : UInt8} (h : isFormSafe c = true) : c < 128 := by
  rw [isFormSafe, Bool.or_eq_true, List.contains_iff_mem] at h
  rcases h with h | h
  · exact isAlnum_lt h
  · have hall : (ascii "*-._").all (· < 128) = true := by decide
    exact of_decide_eq_true (List.all_eq_true.mp hall c h)

theorem formEncode_ascii (s : Bytes) : ∀ c ∈ formEncode s, c < 128 := by
  intro c h
  obtain ⟨b, -, hb⟩ := List.mem_flatMap.mp h
  rcases formByte_mem hb with rfl | rfl | h
  · decide
  · decide
  · exact isFormSafe_lt h

theorem formEncode_append (s t : Bytes) : formEncode (s ++ t) = formEncode s ++ formEncode t :=
  List.flatMap_append

theorem utf8_cons (c : Char) (v : List Char) : utf8 (c :: v) = String.utf8EncodeChar c ++ utf8 v :=
  List.flatMap_cons

def encodedLength (v : List Char) : Nat := (formEncode (utf8 v)).length

theorem encodedLength_cons (c : Char) (v : List Char) :
    encodedLength (c :: v) =
      (formEncode (String.utf8EncodeChar c)).length + encodedLength v := by
  rw [encodedLength, utf8_cons, formEncode_append, List.length_append, encodedLength]

theorem encodedLength_breaks (v : List Char) :
    encodedLength v ≤ encodedLength (normalizeLineBreaks v) ∧
      (encodedLength (normalizeLineBreaks v) = encodedLength v → normalizeLineBreaks v = v) := by
  have hcr : (formEncode (String.utf8EncodeChar '\r')).length = 3 := by decide
  have hlf : (formEncode (String.utf8EncodeChar '\n')).length = 3 := by decide
  fun_induction normalizeLineBreaks v with
  | case1 => exact ⟨Nat.le_refl _, fun _ => rfl⟩
  | case2 v ih =>
    simp only [encodedLength_cons]
    refine ⟨by omega, fun h => ?_⟩
    rw [ih.2 (by omega)]
  | case3 v hnext ih =>
    simp only [encodedLength_cons]
    exact ⟨by omega, fun h => by omega⟩
  | case4 v ih =>
    simp only [encodedLength_cons]
    exact ⟨by omega, fun h => by omega⟩
  | case5 c v hcrlf hcr' hlf' ih =>
    rw [encodedLength_cons c, encodedLength_cons c]
    refine ⟨by omega, fun h => ?_⟩
    rw [ih.2 (by omega)]

/-- Only line breaks that are written in full are sent as the script writes them. -/
theorem formEncode_breaks_iff (v : List Char) :
    formEncode (utf8 (normalizeLineBreaks v)) = formEncode (utf8 v) ↔ normalizeLineBreaks v = v := by
  constructor
  · intro h
    exact (encodedLength_breaks v).2 (congrArg List.length h)
  · intro h
    rw [h]

/-- A field as the script writes it. -/
def scriptRecord (f : TextField) : Bytes := f.name ++ equals :: formEncode (utf8 f.value)

/-- A field as the browser sends it. -/
def sentRecord (f : TextField) : Bytes :=
  f.name ++ equals :: formEncode (utf8 (normalizeLineBreaks f.value))

theorem inputVal_eq (fields : List TextField) :
    inputVal fields =
      (fields.filter fun f => !scriptSkips f).flatMap fun f => scriptRecord f ++ [amp] := by
  rw [inputVal]
  congr 1
  funext f
  rw [scriptName_eq, scriptValue_eq, scriptRecord, List.append_assoc]
  rfl

theorem serialize_append (fields : List TextField) (g : TextField) :
    serialize (fields ++ [g]) =
      (fields.flatMap fun f => sentRecord f ++ [amp]) ++ sentRecord g := by
  have hpair : ∀ f, pairText f = sentRecord f := by
    intro f
    rw [pairText, formEncode_name, sentRecord]
  induction fields with
  | nil => exact hpair g
  | cons f fields ih =>
    have hnext : serialize (f :: fields ++ [g]) = pairText f ++ amp :: serialize (fields ++ [g]) := by
      cases fields with
      | nil => rfl
      | cons f' fields => rfl
    rw [hnext, ih, hpair, List.flatMap_cons]
    simp

theorem submission_eq (fields : List TextField) (csum : Nat) :
    submission fields csum =
      ((fields.filter fun f => f.name != []).flatMap fun f => sentRecord f ++ [amp]) ++
        sentRecord (flagField csum) := by
  rw [submission, List.filter_append]
  exact serialize_append _ _

end FormSubmission
