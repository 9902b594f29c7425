import BoaGateway.Texts

/-!
# Paths

A path is read segment by segment from a root directory: an empty segment or a dot stays,
two dots go up, and every other segment goes down. A path leaves the root if it goes up
from there. Percent-encodings are the ones with two hexadecimal digits.
-/

namespace Paths

open ByteBlocks Texts

/-- An empty segment, a dot or two dots. -/
def isDots (t : Bytes) : Bool := t == [] || t == ascii "." || t == ascii ".."

/-- The directory that a segment leads to, innermost name first. -/
def enter (dir : List Bytes) (t : Bytes) : Option (List Bytes) :=
  if t == ascii ".." then
    if dir = [] then none else some dir.tail
  else if isDots t then some dir
  else some (t :: dir)

/-- The directory that a path leads to, or `none` when it leaves the root on its way. -/
def walk (dir : List Bytes) (ts : List Bytes) : Option (List Bytes) := ts.foldlM enter dir

/-- The path never leaves the directory that it starts from. -/
def staysInside (path : Bytes) : Bool := (walk [] (path.splitOn slash)).isSome

def joinSlash (ts : List Bytes) : Bytes := [slash].intercalate ts

theorem joinSlash_splitOn (s : Bytes) : joinSlash (s.splitOn slash) = s :=
  List.intercalate_splitOn slash

theorem splitOn_joinSlash {ts : List Bytes} (h : ∀ t ∈ ts, slash ∉ t) (hne : ts ≠ []) :
    (joinSlash ts).splitOn slash = ts := List.splitOn_intercalate slash h hne

theorem joinSlash_cons {ts : List Bytes} (t : Bytes) (hne : ts ≠ []) :
    joinSlash (t :: ts) = t ++ slash :: joinSlash ts := by
  rw [joinSlash, List.intercalate_cons_of_ne_nil hne, List.append_assoc]
  rfl

/-- A segment has no slash, and its bytes are bytes of the path. -/
theorem mem_splitOn {s t : Bytes} (h : t ∈ s.splitOn slash) : slash ∉ t ∧ t ⊆ s := by
  induction s generalizing t with
  | nil =>
    rw [List.splitOn_nil, List.mem_singleton] at h
    rw [h]
    exact ⟨List.not_mem_nil, List.Subset.refl []⟩
  | cons c s ih =>
    rw [List.splitOn_cons_eq_if_modifyHead] at h
    by_cases hc : (c == slash) = true
    · rw [if_pos hc] at h
      rcases List.mem_cons.mp h with rfl | hmem
      · exact ⟨List.not_mem_nil, List.nil_subset _⟩
      · exact ⟨(ih hmem).1, List.subset_cons_of_subset c (ih hmem).2⟩
    · rw [if_neg hc] at h
      obtain ⟨u, us, hus⟩ := List.exists_cons_of_ne_nil (List.splitOn_ne_nil slash s)
      rw [hus, List.modifyHead_cons] at h
      rw [hus] at ih
      rcases List.mem_cons.mp h with rfl | hmem
      · obtain ⟨hslash, hsub⟩ := ih List.mem_cons_self
        refine ⟨?_, List.cons_subset_cons c hsub⟩
        intro hmem
        rcases List.mem_cons.mp hmem with heq | htail
        · exact hc (beq_iff_eq.mpr heq.symm)
        · exact hslash htail
      · obtain ⟨hslash, hsub⟩ := ih (List.mem_cons_of_mem u hmem)
        exact ⟨hslash, List.subset_cons_of_subset c hsub⟩

/-- Of the segments in front of the last one, only the names stay. -/
def keepNames (ts : List Bytes) : List Bytes :=
  ts.dropLast.filter (fun t => !isDots t) ++ ts.getLast?.toList

theorem keepNames_concat (ts : List Bytes) (t : Bytes) :
    keepNames (ts ++ [t]) = ts.filter (fun t => !isDots t) ++ [t] := by
  simp [keepNames]

theorem keepNames_cons {t : Bytes} {ts : List Bytes} (h : ts ≠ []) :
    keepNames (t :: ts) = if isDots t then keepNames ts else t :: keepNames ts := by
  obtain ⟨us, u, rfl⟩ := (List.eq_nil_or_concat' ts).resolve_left h
  rw [← List.cons_append, keepNames_concat, keepNames_concat]
  by_cases ht : isDots t = true
  · simp [ht]
  · simp [ht]

theorem keepNames_ne_nil {ts : List Bytes} (h : ts ≠ []) : keepNames ts ≠ [] := by
  obtain ⟨us, u, rfl⟩ := (List.eq_nil_or_concat' ts).resolve_left h
  rw [keepNames_concat]
  exact List.append_ne_nil_of_right_ne_nil _ (List.cons_ne_nil u [])

theorem keepNames_subset (ts : List Bytes) : keepNames ts ⊆ ts := by
  intro t ht
  rcases List.mem_append.mp ht with hmem | hmem
  · exact List.dropLast_subset ts (List.mem_filter.mp hmem).1
  · exact List.mem_of_getLast? (Option.mem_toList.mp hmem)

/-- What is dropped has no encoding, no separator, and nothing else that a segment has. -/
theorem any_keepNames {p : Bytes → Bool} (hp : ∀ t, isDots t = true → p t = false)
    (ts : List Bytes) : (keepNames ts).any p = ts.any p := by
  rcases List.eq_nil_or_concat' ts with rfl | ⟨us, u, rfl⟩
  · rfl
  · rw [keepNames_concat, List.any_append, List.any_append, List.any_filter]
    congr 1
    refine List.any_congr rfl fun t => ?_
    cases ht : isDots t with
    | false => rfl
    | true => rw [hp t ht]; rfl

theorem keepNames_idem (ts : List Bytes) : keepNames (keepNames ts) = keepNames ts := by
  rcases List.eq_nil_or_concat' ts with rfl | ⟨us, u, rfl⟩
  · rfl
  · rw [keepNames_concat, keepNames_concat, List.filter_filter]
    simp

theorem enter_name {t : Bytes} (ht : isDots t = false) (dir : List Bytes) :
    enter dir t = some (t :: dir) := by
  have hne : (t == ascii "..") = false := by
    rw [beq_eq_false_iff_ne]
    rintro rfl
    exact absurd ht (by decide)
  simp only [enter, hne, ht, Bool.false_eq_true, if_false]

/-- Names lead down. -/
theorem walk_names {ts : List Bytes} (h : ∀ t ∈ ts, isDots t = false) (dir us : List Bytes) :
    walk dir (ts ++ us) = walk (ts.reverse ++ dir) us := by
  induction ts generalizing dir with
  | nil => rfl
  | cons t ts ih =>
    have htail : ∀ t ∈ ts, isDots t = false := fun t ht => h t (List.mem_cons_of_mem _ ht)
    rw [List.cons_append, walk, List.foldlM_cons, enter_name (h t List.mem_cons_self)]
    change walk (t :: dir) (ts ++ us) = _
    rw [ih htail]
    simp

theorem walk_last (dir : List Bytes) (t : Bytes) :
    (walk dir [t]).isSome = !(dir.isEmpty && t == ascii "..") := by
  have hwalk : walk dir [t] = enter dir t := by simp [walk]
  rw [hwalk, enter]
  by_cases ht : (t == ascii "..") = true
  · rw [if_pos ht, ht, Bool.and_true]
    cases dir with
    | nil => rfl
    | cons d up => rfl
  · rw [if_neg ht]
    rw [Bool.not_eq_true] at ht
    rw [ht, Bool.and_false]
    split
    · rfl
    · rfl

/-- Only two dots at the end can lead out of a path whose other segments are names. -/
theorem walk_keepNames (ts : List Bytes) :
    (walk [] (keepNames ts)).isSome = false ↔
      ∃ us, ts = us ++ [ascii ".."] ∧ ∀ u ∈ us, isDots u = true := by
  rcases List.eq_nil_or_concat' ts with rfl | ⟨us, u, rfl⟩
  · constructor
    · intro h
      cases h
    · rintro ⟨us, hus, -⟩
      cases us with
      | nil => cases hus
      | cons _ _ => cases hus
  · have hnames : ∀ t ∈ us.filter (fun t => !isDots t), isDots t = false := by
      intro t ht
      simpa using (List.mem_filter.mp ht).2
    rw [keepNames_concat, walk_names hnames, walk_last]
    constructor
    · intro h
      simp only [List.append_nil, Bool.not_eq_eq_eq_not, Bool.not_false, Bool.and_eq_true,
        List.isEmpty_iff, List.reverse_eq_nil_iff, beq_iff_eq] at h
      obtain ⟨hempty, rfl⟩ := h
      refine ⟨us, rfl, fun u hu => ?_⟩
      simpa using List.filter_eq_nil_iff.mp hempty u hu
    · rintro ⟨vs, hvs, hdots⟩
      obtain ⟨rfl, hu⟩ := List.append_inj' hvs rfl
      cases hu
      have hempty : us.filter (fun t => !isDots t) = [] := by
        refine List.filter_eq_nil_iff.mpr fun u hu => ?_
        simp [hdots u hu]
      rw [hempty]
      rfl

def isHex (c : UInt8) : Bool :=
  (48 ≤ c && c ≤ 57) || (65 ≤ c && c ≤ 70) || (97 ≤ c && c ≤ 102)

def hexValue (c : UInt8) : UInt8 := if c ≤ 57 then c - 48 else if c ≤ 70 then c - 55 else c - 87

def startsEncoding : Bytes → Bool
  | c :: d :: e :: _ => c == 37 && isHex d && isHex e
  | _ => false

/-- Some percent-encoding stands in the text. -/
def hasEncoding (s : Bytes) : Bool := s.tails.any startsEncoding

/-- Every percent-encoding is replaced by its character. -/
def percentDecode : Bytes → Bytes
  | c :: d :: e :: s =>
    if c == 37 && isHex d && isHex e then (16 * hexValue d + hexValue e) :: percentDecode s
    else c :: percentDecode (d :: e :: s)
  | c :: s => c :: percentDecode s
  | [] => []

theorem hasEncoding_nil : hasEncoding [] = false := rfl

theorem hasEncoding_cons (c : UInt8) (s : Bytes) :
    hasEncoding (c :: s) = (startsEncoding (c :: s) || hasEncoding s) := by
  rw [hasEncoding, List.tails_cons, List.any_cons]
  rfl

theorem percentDecode_length_le (s : Bytes) : (percentDecode s).length ≤ s.length := by
  induction s using percentDecode.induct with
  | case1 c d e s hstart ih =>
    rw [percentDecode, if_pos hstart]
    simp only [List.length_cons]
    omega
  | case2 c d e s hstart ih =>
    rw [percentDecode, if_neg hstart]
    simp only [List.length_cons] at ih ⊢
    omega
  | case3 c s hshort ih =>
    rw [percentDecode]
    · simp only [List.length_cons]
      omega
    · exact hshort
  | case4 => exact le_rfl

/-- A text is its own decoding when there is no encoding in it. -/
theorem percentDecode_eq_self_iff (s : Bytes) :
    percentDecode s = s ↔ hasEncoding s = false := by
  induction s using percentDecode.induct with
  | case1 c d e s hstart ih =>
    rw [percentDecode, if_pos hstart, hasEncoding_cons]
    constructor
    · intro h
      have hlen := congrArg List.length h
      have hle := percentDecode_length_le s
      simp only [List.length_cons] at hlen
      omega
    · intro h
      rw [startsEncoding, hstart] at h
      cases h
  | case2 c d e s hstart ih =>
    rw [Bool.not_eq_true] at hstart
    rw [percentDecode, hstart, hasEncoding_cons, startsEncoding, hstart, Bool.false_or, ← ih]
    simp
  | case3 c s hshort ih =>
    have hstart : startsEncoding (c :: s) = false := by
      unfold startsEncoding
      split
      · rename_i he
        cases he
        exact (hshort _ _ _ rfl).elim
      · rfl
    rw [percentDecode, hasEncoding_cons, hstart, Bool.false_or, ← ih]
    · simp
    · exact hshort
  | case4 => simp [percentDecode, hasEncoding_nil]

theorem startsEncoding_append (c : UInt8) (s t : Bytes) :
    startsEncoding (c :: s ++ slash :: t) = startsEncoding (c :: s) := by
  have hslash : isHex slash = false := by decide
  match s with
  | [] =>
    cases t with
    | nil => simp [startsEncoding]
    | cons x t => simp [startsEncoding, hslash]
  | [x] => simp [startsEncoding, hslash]
  | x :: y :: s => simp [startsEncoding]

/-- No encoding goes across a slash. -/
theorem hasEncoding_append (s t : Bytes) :
    hasEncoding (s ++ slash :: t) = (hasEncoding s || hasEncoding t) := by
  induction s with
  | nil =>
    have hslash : startsEncoding (slash :: t) = false := by
      unfold startsEncoding
      split
      · rename_i he
        cases he
        rfl
      · rfl
    rw [List.nil_append, hasEncoding_cons, hasEncoding_nil, hslash]
  | cons c s ih =>
    rw [List.cons_append, hasEncoding_cons, ih, hasEncoding_cons, ← List.cons_append,
      startsEncoding_append, Bool.or_assoc]

theorem hasEncoding_joinSlash (ts : List Bytes) :
    hasEncoding (joinSlash ts) = ts.any hasEncoding := by
  induction ts with
  | nil => rfl
  | cons t ts ih =>
    cases ts with
    | nil => simp [joinSlash]
    | cons u us =>
      rw [joinSlash_cons t (List.cons_ne_nil u us), hasEncoding_append, List.any_cons, ← ih]

theorem hasEncoding_isDots (t : Bytes) (ht : isDots t = true) : hasEncoding t = false := by
  simp only [isDots, Bool.or_eq_true, beq_iff_eq] at ht
  rcases ht with (rfl | rfl) | rfl
  · rfl
  · rfl
  · rfl

end Paths
