import BoaGateway.Texts

/-!
# Escaped texts

`addEscapeStr` puts a backslash in front of certain characters of a text, `delEscapeStr`
takes it away again. Both work in place: they move the rest of the text by one byte, inside
an object that may be too small for it.
-/

namespace EscapeText

open ByteBlocks Texts

variable {n : Nat}

def backslash : UInt8 := 92

/-- `specialchar`. -/
def specialChars : Bytes := ascii "'\"&><;()\x7b\x7d$"

def isSpecial (c : UInt8) : Bool := specialChars.contains c

/-- `addEscapeStr` from an index on: the object and the new length of its text. -/
def addEscapeStr (data : Block n) (datalength i : Nat) : Option (Block n × Nat) :=
  if i < datalength then
    match data.1[i]? with
    | none => none
    | some c =>
      if isSpecial c then
        match data.read i (datalength - i) with
        | none => none
        | some buf =>
          match data.write i (backslash :: buf.1) with
          | none => none
          | some data => addEscapeStr data (datalength + 1) (i + 2)
      else addEscapeStr data datalength (i + 1)
  else some (data, datalength)
termination_by datalength - i

/-- `delEscapeStr` from an index on, for the text at an offset of an object. The byte in front
of the text is looked at when the text begins with a special character, and if it is a
backslash, `buf` is filled by the text and has no end. -/
def delEscapeStr (data : Block n) (off datalength i : Nat) : Option (Block n × Nat) :=
  if i < datalength then
    match data.1[off + i]? with
    | none => none
    | some c =>
      if c = 0 then some (data, datalength)
      else if isSpecial c then
        if off + i = 0 then none
        else if data.1[off + i - 1]? = some backslash then
          match data.read (off + i) (datalength - i) with
          | none => none
          | some buf =>
            if 0 ∈ buf.1 ++ List.replicate i 0 then
              match data.write (off + i - 1) (cstr buf.1) with
              | none => none
              | some data =>
                match data.write (off + datalength - 1) [0] with
                | none => none
                | some data => delEscapeStr data off (datalength - 1) i
            else none
        else delEscapeStr data off datalength (i + 1)
      else delEscapeStr data off datalength (i + 1)
  else some (data, datalength)
termination_by datalength - i

/-- The text with a backslash in front of each special character. -/
def escape (s : Bytes) : Bytes := s.flatMap fun c => if isSpecial c then [backslash, c] else [c]

theorem escape_cons_special {c : UInt8} (hc : isSpecial c = true) (s : Bytes) :
    escape (c :: s) = backslash :: c :: escape s := by
  rw [escape, List.flatMap_cons, if_pos hc]
  rfl

theorem escape_cons_plain {c : UInt8} (hc : isSpecial c = false) (s : Bytes) :
    escape (c :: s) = c :: escape s := by
  rw [escape, List.flatMap_cons, if_neg (by simp [hc])]
  rfl

theorem length_le_escape (s : Bytes) : s.length ≤ (escape s).length := by
  induction s with
  | nil => exact Nat.le_refl 0
  | cons c s ih =>
    cases hc : isSpecial c with
    | true =>
      rw [escape_cons_special hc]
      simp only [List.length_cons]
      omega
    | false =>
      rw [escape_cons_plain hc]
      exact Nat.succ_le_succ ih

theorem special_ne_zero {c : UInt8} (hc : isSpecial c = true) : c ≠ 0 := by
  rintro rfl
  exact absurd hc (by decide)

theorem escape_nul_free {s : Bytes} (hs : (0 : UInt8) ∉ s) : (0 : UInt8) ∉ escape s := by
  rw [escape, List.mem_flatMap]
  rintro ⟨c, hc, hmem⟩
  have hne : c ≠ 0 := fun h => hs (h ▸ hc)
  split at hmem
  · rcases List.mem_cons.mp hmem with h | h
    · exact absurd h (by decide)
    · exact hne (List.mem_singleton.mp h).symm
  · exact hne (List.mem_singleton.mp hmem).symm

/-- Only a text without special characters is escaped by itself. -/
theorem escape_eq_self_iff {s : Bytes} : escape s = s ↔ ∀ c ∈ s, isSpecial c = false := by
  constructor
  · intro h
    induction s with
    | nil => exact fun _ hc => absurd hc List.not_mem_nil
    | cons c s ih =>
      cases hc : isSpecial c with
      | true =>
        rw [escape_cons_special hc] at h
        have hlen := congrArg List.length h
        have hle := length_le_escape s
        simp only [List.length_cons] at hlen
        omega
      | false =>
        rw [escape_cons_plain hc, List.cons.injEq] at h
        intro d hd
        rcases List.mem_cons.mp hd with rfl | hd
        · exact hc
        · exact ih h.2 d hd
  · intro h
    induction s with
    | nil => rfl
    | cons c s ih =>
      rw [escape_cons_plain (h c List.mem_cons_self),
        ih fun d hd => h d (List.mem_cons_of_mem c hd)]

/-- The text without the backslashes that stand directly in front of a special character. -/
def unescape : Bytes → Bytes
  | [] => []
  | [c] => [c]
  | c :: d :: s =>
    if c = backslash ∧ isSpecial d then unescape (d :: s) else c :: unescape (d :: s)

theorem unescape_cons_special {d : UInt8} (hd : isSpecial d = true) (s : Bytes) :
    unescape (backslash :: d :: s) = unescape (d :: s) := by
  rw [unescape, if_pos ⟨rfl, hd⟩]

theorem unescape_cons_plain {c d : UInt8} (h : c = backslash → isSpecial d = false) (s : Bytes) :
    unescape (c :: d :: s) = c :: unescape (d :: s) := by
  rw [unescape, if_neg]
  rintro ⟨hc, hd⟩
  rw [h hc] at hd
  cases hd

theorem unescape_length_le (s : Bytes) : (unescape s).length ≤ s.length := by
  fun_induction unescape s with
  | case1 => exact Nat.le_refl 0
  | case2 c => exact Nat.le_refl 1
  | case3 c d s h ih => exact Nat.le_succ_of_le ih
  | case4 c d s h ih => exact Nat.succ_le_succ ih

theorem unescape_cons_escape (c : UInt8) (s : Bytes) : unescape (c :: escape s) = c :: s := by
  induction s generalizing c with
  | nil => rfl
  | cons d s ih =>
    cases hd : isSpecial d with
    | false => rw [escape_cons_plain hd, unescape_cons_plain (fun _ => hd), ih]
    | true =>
      have hbackslash : isSpecial backslash = false := by decide
      rw [escape_cons_special hd, unescape_cons_plain (fun _ => hbackslash),
        unescape_cons_special hd, ih]

theorem unescape_escape (s : Bytes) : unescape (escape s) = s := by
  cases s with
  | nil => rfl
  | cons c s =>
    cases hc : isSpecial c with
    | false => rw [escape_cons_plain hc, unescape_cons_escape]
    | true => rw [escape_cons_special hc, unescape_cons_special hc, unescape_cons_escape]

theorem escape_head (s : Bytes) : ∀ c, (escape s).head? = some c → isSpecial c = false := by
  intro c hc
  cases s with
  | nil => cases hc
  | cons d s =>
    cases hd : isSpecial d with
    | false =>
      rw [escape_cons_plain hd] at hc
      cases hc
      exact hd
    | true =>
      rw [escape_cons_special hd] at hc
      cases hc
      decide

theorem getElem?_middle {data : Block n} {pre s : Bytes} {c : UInt8}
    (hdata : data.1 = pre ++ c :: s) : data.1[pre.length]? = some c := by
  rw [hdata, List.getElem?_append_right (Nat.le_refl _), Nat.sub_self]
  rfl

/-- One round with a special character. -/
theorem addEscapeStr_special {data : Block n} {pre post s : Bytes} {c : UInt8}
    (hc : isSpecial c = true) (hdata : data.1 = pre ++ (c :: s ++ post)) :
    addEscapeStr data (pre ++ c :: s).length pre.length =
      match data.write pre.length (backslash :: c :: s) with
      | none => none
      | some data => addEscapeStr data ((pre ++ c :: s).length + 1) (pre.length + 2) := by
  have hlen : (c :: s).length = (pre ++ c :: s).length - pre.length := by simp
  have hread : data.read pre.length ((pre ++ c :: s).length - pre.length) =
      some ⟨c :: s, hlen⟩ :=
    Block.read_middle (by rw [hdata, List.append_assoc]) rfl hlen
  rw [addEscapeStr, if_pos (by simp)]
  simp only [getElem?_middle hdata, hc, if_true, hread]

theorem addEscapeStr_plain {data : Block n} {pre post s : Bytes} {c : UInt8}
    (hc : isSpecial c = false) (hdata : data.1 = pre ++ (c :: s ++ post)) :
    addEscapeStr data (pre ++ c :: s).length pre.length =
      addEscapeStr data (pre ++ c :: s).length (pre.length + 1) := by
  rw [addEscapeStr, if_pos (by simp)]
  simp only [getElem?_middle hdata, hc, Bool.false_eq_true, if_false]

/-- The text behind the index is escaped, if there is room for it. -/
theorem addEscapeStr_eq {data : Block n} {pre s post : Bytes}
    (hdata : data.1 = pre ++ (s ++ post)) :
    ((pre ++ escape s).length ≤ n → ∃ data', addEscapeStr data (pre ++ s).length pre.length =
        some (data', (pre ++ escape s).length) ∧ pre ++ escape s <+: data'.1) ∧
      (n < (pre ++ escape s).length → addEscapeStr data (pre ++ s).length pre.length = none) := by
  have hsize := data.2
  induction s generalizing data pre post with
  | nil =>
    have hle : (pre ++ escape []).length ≤ n := by
      rw [← hsize, hdata]
      simp [escape]
    constructor
    · intro _
      rw [addEscapeStr, if_neg (by simp)]
      refine ⟨data, by simp [escape], ?_⟩
      rw [hdata]
      exact ⟨post, by simp [escape]⟩
    · exact fun h => absurd hle (Nat.not_le_of_lt h)
  | cons c s ih =>
    cases hc : isSpecial c with
    | false =>
      have hnext : data.1 = (pre ++ [c]) ++ (s ++ post) := by simp [hdata]
      have hrest := ih hnext hsize
      have hindex : (pre ++ [c]).length = pre.length + 1 := List.length_append
      rw [hindex, List.append_assoc, List.singleton_append, List.append_assoc,
        List.singleton_append] at hrest
      rw [addEscapeStr_plain hc hdata, escape_cons_plain hc]
      exact hrest
    | true =>
      rw [addEscapeStr_special hc hdata, escape_cons_special hc]
      have hlen : n = pre.length + ((c :: s).length + post.length) := by
        rw [← hsize, hdata, List.length_append, List.length_append]
      cases post with
      | nil =>
        have hnone : data.write pre.length (backslash :: c :: s) = none := by
          rw [Option.eq_none_iff_forall_ne_some]
          intro data' h
          have hfit := Block.write_length h
          simp only [List.length_cons, List.length_nil] at hfit hlen
          omega
        have hlong : n < (pre ++ backslash :: c :: escape s).length := by
          have hle := length_le_escape s
          simp only [List.length_append, List.length_cons, List.length_nil] at hlen ⊢
          omega
        rw [hnone]
        exact ⟨fun h => absurd h (Nat.not_le_of_lt hlong), fun _ => rfl⟩
      | cons d post =>
        obtain ⟨data', hwrite, hdata'⟩ : ∃ data' : Block n,
            data.write pre.length (backslash :: c :: s) = some data' ∧
              data'.1 = pre ++ (backslash :: c :: s) ++
                ((c :: s) ++ d :: post).drop (backslash :: c :: s).length :=
          Block.write_after hdata rfl (by simp)
        have hdrop : ((c :: s) ++ d :: post).drop (backslash :: c :: s).length = post := by
          simp
        have hnext : data'.1 = (pre ++ [backslash, c]) ++ (s ++ post) := by
          rw [hdata', hdrop]
          simp
        have hrest := ih hnext data'.2
        simp only [hwrite]
        have hindex : (pre ++ [backslash, c]).length = pre.length + 2 := List.length_append
        have hlength : (pre ++ [backslash, c] ++ s).length = (pre ++ c :: s).length + 1 := by
          simp only [List.length_append, List.length_cons, List.length_nil]
          omega
        rw [hindex, hlength, List.append_assoc pre] at hrest
        exact hrest

/-- A round in which nothing moves. -/
theorem delEscapeStr_next {data : Block n} {pre done rest : Bytes} {c : UInt8} {datalength : Nat}
    (hdata : data.1 = (pre ++ done) ++ c :: rest) (hlen : done.length < datalength)
    (hzero : c ≠ 0) (hc : isSpecial c = false) :
    delEscapeStr data pre.length datalength done.length =
      delEscapeStr data pre.length datalength (done.length + 1) := by
  have hat := getElem?_middle hdata
  rw [List.length_append] at hat
  rw [delEscapeStr, if_pos hlen]
  simp only [hat, hzero, hc, Bool.false_eq_true, if_false]

/-- A round with a special character behind another one than a backslash. -/
theorem delEscapeStr_kept {data : Block n} {pre d rest : Bytes} {p c : UInt8} {datalength : Nat}
    (hdata : data.1 = (pre ++ (d ++ [p])) ++ c :: rest) (hlen : (d ++ [p]).length < datalength)
    (hp : p ≠ backslash) (hc : isSpecial c = true) :
    delEscapeStr data pre.length datalength (d ++ [p]).length =
      delEscapeStr data pre.length datalength ((d ++ [p]).length + 1) := by
  have hat := getElem?_middle hdata
  rw [List.length_append] at hat
  have hprev : data.1[(pre ++ d).length]? = some p :=
    getElem?_middle (s := c :: rest) (by simp [hdata])
  have hindex : pre.length + (d ++ [p]).length - 1 = (pre ++ d).length := by
    simp only [List.length_append, List.length_singleton]
    omega
  rw [delEscapeStr, if_pos hlen]
  simp only [hat, special_ne_zero hc, hc, if_true, if_false]
  rw [if_neg (by simp only [List.length_append, List.length_singleton]; omega), hindex, hprev,
    if_neg fun h => hp (Option.some.inj h)]

/-- A round that takes a backslash away. -/
theorem delEscapeStr_special {data : Block n} {pre done rest post : Bytes} {c : UInt8}
    (hc : isSpecial c = true) (hrest : (0 : UInt8) ∉ rest)
    (hdata : data.1 = (pre ++ done) ++ (backslash :: c :: rest ++ post)) :
    ∃ data' : Block n, data'.1 = (pre ++ (done ++ [c])) ++ (rest ++ 0 :: post) ∧
      delEscapeStr data pre.length (done ++ backslash :: c :: rest).length (done.length + 1) =
        delEscapeStr data' pre.length (done ++ c :: rest).length (done.length + 1) := by
  have hsplit : data.1 = (pre ++ done ++ [backslash]) ++ c :: (rest ++ post) := by
    simp [hdata]
  have hmiddle : data.1 = (pre ++ done ++ [backslash]) ++ (c :: rest) ++ post := by
    simp [hsplit]
  have hfront : (pre ++ done ++ [backslash]).length = pre.length + (done.length + 1) := by
    simp only [List.length_append, List.length_singleton]
    omega
  have hat := getElem?_middle hsplit
  rw [hfront] at hat
  have hprev := getElem?_middle hdata
  rw [List.length_append] at hprev
  have hlen : (c :: rest).length =
      (done ++ backslash :: c :: rest).length - (done.length + 1) := by
    simp only [List.length_append, List.length_cons]
    omega
  have hread : data.read (pre.length + (done.length + 1))
      ((done ++ backslash :: c :: rest).length - (done.length + 1)) = some ⟨c :: rest, hlen⟩ :=
    Block.read_middle hmiddle hfront hlen
  have hfree : (0 : UInt8) ∉ c :: rest := by
    rw [List.mem_cons, not_or]
    exact ⟨(special_ne_zero hc).symm, hrest⟩
  have hzeros : (0 : UInt8) ∈ c :: rest ++ List.replicate (done.length + 1) 0 :=
    List.mem_append_right _ (List.mem_replicate.mpr ⟨Nat.succ_ne_zero _, rfl⟩)
  obtain ⟨data₁, hwrite₁, hdata₁⟩ : ∃ data₁ : Block n,
      data.write (pre.length + (done.length + 1) - 1) (c :: rest) = some data₁ ∧
        data₁.1 = (pre ++ done) ++ (c :: rest) ++
          (backslash :: c :: rest ++ post).drop (c :: rest).length :=
    Block.write_after hdata (by rw [List.length_append]; omega) (by simp; omega)
  obtain ⟨x, hx⟩ : ∃ x, (backslash :: c :: rest).drop (c :: rest).length = [x] := by
    rw [← List.length_eq_one_iff]
    simp
  have hmoved : data₁.1 = (pre ++ done ++ (c :: rest)) ++ x :: post := by
    rw [hdata₁, List.drop_append_of_le_length (by simp), hx]
    simp
  obtain ⟨data₂, hwrite₂, hdata₂⟩ : ∃ data₂ : Block n,
      data₁.write (pre.length + (done ++ backslash :: c :: rest).length - 1) [0] = some data₂ ∧
        data₂.1 = (pre ++ done ++ (c :: rest)) ++ [0] ++ (x :: post).drop 1 := by
    refine Block.write_after hmoved ?_ (by simp)
    simp only [List.length_append, List.length_cons]
    omega
  refine ⟨data₂, by simp [hdata₂], ?_⟩
  have hlast : (done ++ backslash :: c :: rest).length - 1 = (done ++ c :: rest).length := by
    simp only [List.length_append, List.length_cons]
    omega
  rw [delEscapeStr, if_pos (by simp)]
  simp only [hat, special_ne_zero hc, hc, if_true, if_false]
  rw [if_neg (by omega), if_pos (by rw [← hprev]; rfl)]
  simp only [hread, if_pos hzeros, cstr_eq_self hfree, hwrite₁, hwrite₂, hlast]

/-- The rounds behind a first character: the backslashes go, and zero bytes follow the text. -/
theorem delEscapeStr_behind {data : Block n} {pre d s post : Bytes} {p : UInt8}
    (hs : (0 : UInt8) ∉ s) (hdata : data.1 = (pre ++ (d ++ [p])) ++ (s ++ post)) :
    ∃ data' : Block n,
      delEscapeStr data pre.length (d ++ p :: s).length (d.length + 1) =
        some (data', (d ++ unescape (p :: s)).length) ∧
      data'.1 = pre ++ (d ++ unescape (p :: s)) ++
        (List.replicate ((p :: s).length - (unescape (p :: s)).length) 0 ++ post) := by
  induction s generalizing data d p post with
  | nil =>
    refine ⟨data, ?_, ?_⟩
    · rw [delEscapeStr, if_neg (by simp)]
      rfl
    · simp [hdata, unescape]
  | cons c s ih =>
    have hfree : (0 : UInt8) ∉ s := fun h => hs (List.mem_cons_of_mem c h)
    have hzero : c ≠ 0 := fun h => hs (h ▸ List.mem_cons_self)
    have hindex : (d ++ [p]).length = d.length + 1 := List.length_append
    by_cases htaken : p = backslash ∧ isSpecial c = true
    · obtain ⟨rfl, hc⟩ := htaken
      have htext : data.1 = (pre ++ d) ++ (backslash :: c :: s ++ post) := by simp [hdata]
      obtain ⟨data₁, hdata₁, hround⟩ := delEscapeStr_special hc hfree htext
      obtain ⟨data', hrun, hdata'⟩ := ih hfree hdata₁
      have hle := unescape_length_le (c :: s)
      have hcount : (backslash :: c :: s).length - (unescape (c :: s)).length =
          (c :: s).length - (unescape (c :: s)).length + 1 := by
        simp only [List.length_cons] at hle ⊢
        omega
      rw [unescape_cons_special hc, hround]
      refine ⟨data', hrun, ?_⟩
      rw [hdata', hcount, List.replicate_succ']
      simp
    · have hplain : p = backslash → isSpecial c = false := fun hp =>
        Bool.eq_false_iff.mpr fun hc => htaken ⟨hp, hc⟩
      have hnext : data.1 = (pre ++ (d ++ [p] ++ [c])) ++ (s ++ post) := by simp [hdata]
      have hlen : (d ++ [p]).length < (d ++ p :: c :: s).length := by simp
      have hround : delEscapeStr data pre.length (d ++ p :: c :: s).length (d.length + 1) =
          delEscapeStr data pre.length (d ++ p :: c :: s).length (d.length + 1 + 1) := by
        rw [← hindex]
        cases hc : isSpecial c with
        | false => exact delEscapeStr_next hdata hlen hzero hc
        | true =>
          refine delEscapeStr_kept hdata hlen (fun hp => ?_) hc
          rw [hplain hp] at hc
          cases hc
      obtain ⟨data', hrun, hdata'⟩ := ih hfree hnext
      rw [hindex, List.append_assoc, List.singleton_append, List.append_assoc,
        List.singleton_append] at hrun
      have hcount : (p :: c :: s).length - (p :: unescape (c :: s)).length =
          (c :: s).length - (unescape (c :: s)).length := Nat.add_sub_add_right _ 1 _
      rw [unescape_cons_plain hplain, hround, hcount]
      refine ⟨data', hrun, ?_⟩
      rw [hdata']
      simp

/-- The first round, where the text begins with a special character. -/
theorem delEscapeStr_first {data : Block n} {pre s post : Bytes} {c : UInt8}
    (hfree : (0 : UInt8) ∉ c :: s) (hc : isSpecial c = true)
    (hdata : data.1 = pre ++ (c :: s ++ post)) :
    delEscapeStr data pre.length (c :: s).length 0 =
      if pre.getLast?.all (· == backslash) then none
      else delEscapeStr data pre.length (c :: s).length 1 := by
  have hat : data.1[pre.length + 0]? = some c := getElem?_middle hdata
  have hpos : 0 < (c :: s).length := Nat.succ_pos s.length
  rw [delEscapeStr, if_pos hpos]
  simp only [hat, special_ne_zero hc, hc, if_true, if_false]
  rcases List.eq_nil_or_concat pre with rfl | ⟨front, p, rfl⟩
  · rfl
  rw [List.concat_eq_append] at hdata hat ⊢
  have hprev : data.1[front.length]? = some p :=
    getElem?_middle (s := c :: (s ++ post)) (by simp [hdata])
  have hindex : (front ++ [p]).length + 0 - 1 = front.length := by simp
  rw [if_neg (by simp), hindex, hprev, List.getLast?_concat, Option.all_some]
  by_cases hp : p = backslash
  · subst hp
    have hread : data.read ((front ++ [backslash]).length + 0) ((c :: s).length - 0) =
        some ⟨c :: s, rfl⟩ := Block.read_middle
          (hdata.trans (List.append_assoc (front ++ [backslash]) (c :: s) post).symm) rfl rfl
    rw [if_pos rfl, if_pos (by decide), hread]
    simp only [List.replicate_zero, List.append_nil, if_neg hfree]
  · rw [if_neg fun h => hp (Option.some.inj h), if_neg (by simpa using hp)]

/-- A text that does not begin with a special character, or has another byte than a backslash
in front. -/
theorem delEscapeStr_eq {data : Block n} {pre s post : Bytes} (hs : (0 : UInt8) ∉ s)
    (hhead : ∀ c, s.head? = some c → isSpecial c = true →
      pre.getLast?.all (· == backslash) = false) (hdata : data.1 = pre ++ (s ++ post)) :
    ∃ data' : Block n,
      delEscapeStr data pre.length s.length 0 = some (data', (unescape s).length) ∧
      data'.1 = pre ++ unescape s ++
        (List.replicate (s.length - (unescape s).length) 0 ++ post) := by
  cases s with
  | nil =>
    refine ⟨data, ?_, by simp [hdata, unescape]⟩
    rw [delEscapeStr, if_neg (by simp)]
    rfl
  | cons c s =>
    have hzero : c ≠ 0 := fun h => hs (h ▸ List.mem_cons_self)
    have hfree : (0 : UInt8) ∉ s := fun h => hs (List.mem_cons_of_mem c h)
    have htext : data.1 = (pre ++ ([] ++ [c])) ++ (s ++ post) := by simp [hdata]
    have hfirst : data.1 = (pre ++ []) ++ c :: (s ++ post) := by simp [hdata]
    obtain ⟨data', hrun, hdata'⟩ := delEscapeStr_behind hfree htext
    refine ⟨data', ?_, hdata'⟩
    cases hc : isSpecial c with
    | false => exact (delEscapeStr_next hfirst (Nat.succ_pos s.length) hzero hc).trans hrun
    | true =>
      rw [delEscapeStr_first hs hc hdata, hhead c rfl hc, if_neg Bool.false_ne_true]
      exact hrun

/-- An escaped text becomes the text again, with zero bytes where it was longer. -/
theorem delEscapeStr_escape {data : Block n} {pre done s post : Bytes} (hs : (0 : UInt8) ∉ s)
    (hdata : data.1 = (pre ++ done) ++ (escape s ++ 0 :: post)) :
    ∃ data' : Block n,
      delEscapeStr data pre.length (done ++ escape s).length done.length =
        some (data', (done ++ s).length) ∧
      data'.1 = pre ++ (done ++ s) ++
        (List.replicate ((escape s).length - s.length) 0 ++ 0 :: post) := by
  have hfree := escape_nul_free hs
  rcases List.eq_nil_or_concat done with rfl | ⟨d, p, rfl⟩
  · obtain ⟨data', hrun, hdata'⟩ := delEscapeStr_eq hfree
      (fun c hc hspecial => absurd hspecial (Bool.eq_false_iff.mp (escape_head s c hc)))
      (show data.1 = pre ++ (escape s ++ 0 :: post) by simp [hdata])
    rw [unescape_escape] at hrun hdata'
    exact ⟨data', hrun, hdata'⟩
  · rw [List.concat_eq_append] at hdata ⊢
    obtain ⟨data', hrun, hdata'⟩ := delEscapeStr_behind hfree hdata
    have hcount : (p :: escape s).length - (p :: s).length = (escape s).length - s.length :=
      Nat.add_sub_add_right _ 1 _
    rw [unescape_cons_escape, hcount] at hdata'
    rw [unescape_cons_escape] at hrun
    have hindex : (d ++ [p]).length = d.length + 1 := List.length_append
    rw [List.append_assoc, List.singleton_append, List.append_assoc, List.singleton_append, hindex]
    exact ⟨data', hrun, hdata'⟩

end EscapeText
