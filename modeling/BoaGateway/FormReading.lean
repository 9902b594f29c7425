import BoaGateway.FormEncoding

/-!
# Which fields are read

Both functions search for a name as a text, wherever it stands. Here it is said which fields
they take for a variable, and from it exactly when they deliver the value of the field that
has the variable's name.
-/

namespace FormReading

open ByteBlocks Texts Paths Occurrences CgiParams FormEncoding

/-- The texts of the values that `getcgiparam_adv` takes for those of a name, one by one. -/
def takenTexts (param start : Bytes) : List Bytes :=
  match hround : advRound param start with
  | none => []
  | some .missing => []
  | some (.field value none) => [value]
  | some (.field value (some rest)) => value :: takenTexts param rest
  | some (.passed behind) => if hparam : param = [] then [] else takenTexts param behind
termination_by start.length
decreasing_by
  · exact advRound_field_length hround
  · exact advRound_passed_length hround hparam

theorem takenTexts_round {param : Bytes} (hparam : param ≠ []) (start : Bytes) :
    takenTexts param start =
      match advRound param start with
      | none => []
      | some .missing => []
      | some (.field value none) => [value]
      | some (.field value (some rest)) => value :: takenTexts param rest
      | some (.passed behind) => takenTexts param behind := by
  rw [takenTexts]
  split <;> rename_i hround <;> rw [hround]
  rw [dif_neg hparam]

theorem advLoop_round {param start : Bytes} (hstart : start ≠ []) (maxlen : Nat) (index : Int)
    (count : Nat) :
    advLoop maxlen param index count start =
      match advRound param start with
      | none => none
      | some .missing => some none
      | some (.field value none) =>
        if index < 0 ∨ index = count then some (some (copyValue maxlen value)) else some none
      | some (.field value (some rest)) =>
        if index < 0 ∨ index = count then some (some (copyValue maxlen value))
        else advLoop maxlen param index (count + 1) rest
      | some (.passed behind) =>
        if param = [] then none else advLoop maxlen param index count behind := by
  rw [advLoop, if_neg hstart]
  split <;> rename_i hround <;> rw [hround]
  rfl

/-- With a name that is not empty the loop delivers the value that is asked for. -/
theorem advLoop_eq {param : Bytes} (hparam : param ≠ []) (hlen : param.length ≤ 127)
    (maxlen : Nat) {index : Int} {count k : Nat}
    (hindex : index = count + k ∨ index < 0 ∧ k = 0) (start : Bytes) :
    advLoop maxlen param index count start =
      some ((takenTexts param start)[k]?.map (copyValue maxlen)) := by
  induction hsize : start.length using Nat.strong_induction_on generalizing start count k with
  | _ size ih =>
    rw [takenTexts_round hparam]
    by_cases hstart : start = []
    · rw [advLoop, if_pos hstart, hstart, advRound_of_none hlen (cutFirst_nil hparam)]
      rfl
    · rw [advLoop_round hstart]
      have hgoal : index < 0 ∨ index = count ↔ k = 0 := by omega
      cases hround : advRound param start with
      | none => exact absurd hround (advRound_ne_none hlen start)
      | some round =>
        cases round with
        | missing => rfl
        | field value rest =>
          cases rest with
          | none =>
            cases k with
            | zero => exact if_pos (hgoal.mpr rfl)
            | succ k => exact if_neg (mt hgoal.mp (Nat.succ_ne_zero k))
          | some rest =>
            cases k with
            | zero => exact if_pos (hgoal.mpr rfl)
            | succ k =>
              have hnext : index = ↑(count + 1) + ↑k ∨ index < 0 ∧ k = 0 := by omega
              have hrest := ih rest.length (hsize ▸ advRound_field_length hround) hnext rest rfl
              exact (if_neg (mt hgoal.mp (Nat.succ_ne_zero k))).trans hrest
        | passed behind =>
          have hbehind := advRound_passed_length hround hparam
          exact (if_neg hparam).trans (ih behind.length (hsize ▸ hbehind) hindex behind rfl)

/-- A place that a search finds, which may stand at the start of a field or inside one. -/
def takenAt (live : Bool) (param start : Bytes) : List Bytes :=
  match cutFirst param start with
  | none => []
  | some (before, behind) =>
    if (live && before == [] || before.getLast? == some amp) && behind.head? == some equals then
      match cutFirst [amp] behind.tail with
      | none => [behind.tail]
      | some (value, rest) => value :: takenTexts param rest
    else takenTexts param behind

theorem takenTexts_eq_takenAt {param : Bytes} (hparam : param ≠ []) (hlen : param.length ≤ 127)
    (start : Bytes) : takenTexts param start = takenAt true param start := by
  rw [takenTexts_round hparam, takenAt]
  cases hcut : cutFirst param start with
  | none => rw [advRound_of_none hlen hcut]
  | some found =>
    obtain ⟨before, behind⟩ := found
    rw [advRound_of_some hlen hcut, isField]
    simp only [Bool.true_and]
    cases (before == [] || before.getLast? == some amp) && behind.head? == some equals with
    | false => rfl
    | true =>
      simp only [if_true]
      cases cutFirst [amp] behind.tail with
      | none => rfl
      | some cut => rfl

/-- What stands in front of a place is looked at for its last byte only. -/
theorem takenAt_skip {param u : Bytes} {c : UInt8} {s : Bytes}
    (h : cutFirst param (u ++ c :: s) = (cutFirst param s).map fun q => (u ++ c :: q.1, q.2))
    (live : Bool) : takenAt live param (u ++ c :: s) = takenAt (c == amp) param s := by
  rw [takenAt, takenAt, h]
  cases cutFirst param s with
  | none => rfl
  | some found =>
    obtain ⟨before, behind⟩ := found
    have hbefore : (live && u ++ c :: before == [] || (u ++ c :: before).getLast? == some amp) =
        (c == amp && before == [] || before.getLast? == some amp) := by
      have hne : (u ++ c :: before == []) = false := by simp
      rw [hne, Bool.and_false, Bool.false_or, List.getLast?_append_cons]
      cases before with
      | nil => simp
      | cons b before => simp
    simp only [Option.map_some, hbefore]

theorem head_ne_equals {r : Bytes} (hr : equals ∉ r) (more : Bytes) :
    ((r ++ amp :: more).head? == some equals) = false := by
  cases r with
  | nil => rfl
  | cons c r =>
    have hne : c ≠ equals := fun h => hr (h ▸ List.mem_cons_self)
    simpa using hne

/-- How often a name stands at the start of a field with a `=` behind it, where an occurrence
is looked for behind the one before and, after a field, behind its `&`. -/
def places (param query : Bytes) : Nat :=
  match hcut : cutFirst param query with
  | none => 0
  | some (before, behind) =>
    if hparam : param = [] then 0
    else if (before = [] ∨ before.getLast? = some amp) ∧ behind.head? = some equals then
      match hvalue : cutFirst [amp] behind.tail with
      | none => 1
      | some (_, rest) => places param rest + 1
    else places param behind
termination_by query.length
decreasing_by
  · have hlen := cutFirst_length hcut
    have hrest := cutFirst_length hvalue
    rw [List.length_tail] at hrest
    have hpos := List.length_pos_iff.mpr hparam
    omega
  · exact (cutFirst_behind hparam hcut).2

theorem places_of_none {param query : Bytes} (hcut : cutFirst param query = none) :
    places param query = 0 := by
  rw [places]
  split
  · rfl
  · rename_i hsome
    rw [hsome] at hcut
    cases hcut

theorem places_of_some {param query before behind : Bytes} (hparam : param ≠ [])
    (hcut : cutFirst param query = some (before, behind)) :
    places param query =
      if (before = [] ∨ before.getLast? = some amp) ∧ behind.head? = some equals then
        match cutFirst [amp] behind.tail with
        | none => 1
        | some (_, rest) => places param rest + 1
      else places param behind := by
  rw [places]
  split
  · rename_i hnone
    rw [hnone] at hcut
    cases hcut
  · rename_i hsome
    rw [hsome] at hcut
    cases hcut
    rw [dif_neg hparam]
    split
    · split <;> rename_i hvalue <;> rw [hvalue]
    · rfl

/-- One value is taken for each of the places. -/
theorem takenTexts_length {param : Bytes} (hparam : param ≠ []) (hlen : param.length ≤ 127)
    (query : Bytes) : (takenTexts param query).length = places param query := by
  induction hsize : query.length using Nat.strong_induction_on generalizing query with
  | _ size ih =>
    rw [takenTexts_eq_takenAt hparam hlen, takenAt]
    cases hcut : cutFirst param query with
    | none => rw [places_of_none hcut, List.length_nil]
    | some found =>
      obtain ⟨before, behind⟩ := found
      have hbehind := (cutFirst_behind hparam hcut).2
      rw [places_of_some hparam hcut]
      by_cases hfield : (before = [] ∨ before.getLast? = some amp) ∧ behind.head? = some equals
      · have hfound : (true && before == [] || before.getLast? == some amp) &&
            behind.head? == some equals := by simpa using hfield
        rw [if_pos hfield]
        simp only [hfound, if_true]
        cases hvalue : cutFirst [amp] behind.tail with
        | none => rfl
        | some cut =>
          obtain ⟨value, rest⟩ := cut
          have hrest := cutFirst_length hvalue
          rw [List.length_tail] at hrest
          rw [List.length_cons, ih rest.length (by omega) rest rfl]
      · have hfound : ¬ ((true && before == [] || before.getLast? == some amp) &&
            behind.head? == some equals) := by simpa using hfield
        rw [if_neg hfield]
        simp only [hfound, Bool.false_eq_true, if_false]
        exact ih behind.length (hsize ▸ hbehind) behind rfl

/-- In a value no field is found: the search goes on in the next field. -/
theorem takenAt_value {param v : Bytes} (hparam : param ≠ []) (hlen : param.length ≤ 127)
    (hamp : amp ∉ param) (hv : equals ∉ v) (more : Bytes) (live : Bool) :
    takenAt live param (v ++ amp :: more) = takenTexts param more := by
  induction hsize : v.length using Nat.strong_induction_on generalizing v live with
  | _ size ih =>
    cases hcut : cutFirst param v with
    | none =>
      rw [takenAt_skip (cutFirst_of_not_occurs hparam hamp hcut more),
        takenTexts_eq_takenAt hparam hlen]
      rfl
    | some found =>
      obtain ⟨before, behind⟩ := found
      obtain ⟨hsub, hshort⟩ := cutFirst_behind hparam hcut
      have hbehind : equals ∉ behind := fun hmem => hv (hsub hmem)
      rw [takenAt, cutFirst_of_occurs hparam hamp hcut more]
      simp only [head_ne_equals hbehind, Bool.and_false, Bool.false_eq_true, if_false]
      rw [takenTexts_eq_takenAt hparam hlen]
      exact ih behind.length (hsize ▸ hshort) hbehind true rfl

theorem takenAt_last {param v : Bytes} (hparam : param ≠ []) (hlen : param.length ≤ 127)
    (hv : equals ∉ v) (live : Bool) : takenAt live param v = [] := by
  induction hsize : v.length using Nat.strong_induction_on generalizing v live with
  | _ size ih =>
    rw [takenAt]
    cases hcut : cutFirst param v with
    | none => rfl
    | some found =>
      obtain ⟨before, behind⟩ := found
      obtain ⟨hsub, hshort⟩ := cutFirst_behind hparam hcut
      have hbehind : equals ∉ behind := fun hmem => hv (hsub hmem)
      have hhead : (behind.head? == some equals) = false := by
        rw [beq_eq_false_iff_ne]
        intro hhead
        exact hbehind (List.mem_of_head? hhead)
      simp only [hhead, Bool.and_false, Bool.false_eq_true, if_false]
      rw [takenTexts_eq_takenAt hparam hlen]
      exact ih behind.length (hsize ▸ hshort) hbehind true rfl

/-- The name of a field is taken for the variable's when it is the same, or when an occurrence
of the variable's name in it leaves exactly that name. -/
def taken (param nameText : Bytes) : Bool := (nameText :: leftovers param nameText).contains param

theorem taken_self (param : Bytes) : taken param param = true := by
  simp [taken]

theorem taken_of_none {param n : Bytes} (h : cutFirst param n = none) : taken param n = false := by
  rw [taken, leftovers_of_none h]
  by_contra hmem
  have hn : param = n := by simpa using hmem
  have hself := cutFirst_self_append param []
  rw [List.append_nil] at hself
  rw [← hn, hself] at h
  cases h

theorem taken_of_some {param n before behind : Bytes} (hparam : param ≠ []) (hne : n ≠ param)
    (h : cutFirst param n = some (before, behind)) : taken param n = taken param behind := by
  rw [taken, leftovers_of_some hparam h, List.contains_cons, beq_false_of_ne hne.symm,
    Bool.false_or, taken]

/-- A name is searched from the start of its field. -/
theorem takenAt_name {param n : Bytes} (hparam : param ≠ []) (hlen : param.length ≤ 127)
    (hequals : equals ∉ param) (hn : amp ∉ n ∧ equals ∉ n) (s : Bytes) :
    takenAt true param (n ++ equals :: s) =
      if taken param n = true then
        match cutFirst [amp] s with
        | none => [s]
        | some (value, rest) => value :: takenTexts param rest
      else takenAt false param s := by
  induction hsize : n.length using Nat.strong_induction_on generalizing n with
  | _ size ih =>
    cases hcut : cutFirst param n with
    | none =>
      rw [takenAt_skip (cutFirst_of_not_occurs hparam hequals hcut s), taken_of_none hcut]
      rfl
    | some found =>
      obtain ⟨before, behind⟩ := found
      obtain ⟨hsub, hshort⟩ := cutFirst_behind hparam hcut
      have hsplit := cutFirst_eq_some hcut
      rw [takenAt, cutFirst_of_occurs hparam hequals hcut s]
      by_cases hsame : n = param
      · subst hsame
        have hself := cutFirst_self_append n []
        rw [List.append_nil, hcut] at hself
        cases hself
        rw [taken_self]
        rfl
      · have hnot : ((true && before == [] || before.getLast? == some amp) &&
            (behind ++ equals :: s).head? == some equals) = false := by
          have hlast : before.getLast? ≠ some amp := by
            intro hlast
            apply hn.1
            rw [hsplit]
            exact List.mem_append_left (param ++ behind) (List.mem_of_getLast? hlast)
          cases behind with
          | nil =>
            have hbefore : before ≠ [] := by
              rintro rfl
              rw [List.append_nil] at hsplit
              exact hsame hsplit
            simp [hbefore, hlast]
          | cons c behind =>
            have hc : c ≠ equals := fun hc => hn.2 (hc ▸ hsub List.mem_cons_self)
            simp [hc]
        simp only [hnot, Bool.false_eq_true, if_false]
        rw [takenTexts_eq_takenAt hparam hlen, taken_of_some hparam hsame hcut]
        exact ih behind.length (hsize ▸ hshort)
          ⟨fun hmem => hn.1 (hsub hmem), fun hmem => hn.2 (hsub hmem)⟩ rfl

theorem takenTexts_urlEncode {param : Bytes} (hparam : param ≠ []) (hlen : param.length ≤ 127)
    (hamp : amp ∉ param) (hequals : equals ∉ param) (fields : List UrlField) :
    takenTexts param (urlEncode fields) =
      (fields.filter fun f => taken param f.nameText).map UrlField.valueText := by
  induction fields using urlEncode.induct with
  | case1 =>
    rw [takenTexts_round hparam, urlEncode, advRound_of_none hlen (cutFirst_nil hparam)]
    rfl
  | case2 f =>
    have hvalue := f.value_encoded.no_separator
    rw [takenTexts_eq_takenAt hparam hlen, urlEncode, UrlField.text,
      takenAt_name hparam hlen hequals f.name_encoded.no_separator,
      cutFirst_singleton_none hvalue.1, takenAt_last hparam hlen hvalue.2]
    cases htaken : taken param f.nameText <;> simp [htaken]
  | case3 f g fs ih =>
    have hvalue := f.value_encoded.no_separator
    rw [takenTexts_eq_takenAt hparam hlen, urlEncode, UrlField.text, List.append_assoc,
      List.cons_append, takenAt_name hparam hlen hequals f.name_encoded.no_separator,
      cutFirst_singleton hvalue.1, takenAt_value hparam hlen hamp hvalue.2]
    cases htaken : taken param f.nameText <;> simp [htaken, ih]

theorem urlEncode_name_length {fields : List UrlField} {f : UrlField} (hf : f ∈ fields) :
    f.nameText.length < (urlEncode fields).length := by
  induction fields using urlEncode.induct with
  | case1 => cases hf
  | case2 g =>
    rw [List.mem_singleton.mp hf, urlEncode, UrlField.text, List.length_append, List.length_cons]
    omega
  | case3 g h fs ih =>
    rw [urlEncode, UrlField.text]
    simp only [List.length_append, List.length_cons]
    rcases List.mem_cons.mp hf with rfl | hf
    · omega
    · have hlen := ih hf
      omega

/-- An empty name is found at once: either it starts a field there, or the loop stands still. -/
theorem advRound_empty (start : Bytes) :
    advRound [] start = some (if start.head? = some equals then
      match cutFirst [amp] start.tail with
      | none => .field start.tail none
      | some (value, rest) => .field value (some rest)
      else .passed start) := by
  have hlen : ([] : Bytes).length ≤ 127 := Nat.zero_le 127
  have hself : cutFirst [] start = some ([], start) := cutFirst_self_append [] start
  rw [advRound_of_some hlen hself, isField]
  by_cases hhead : start.head? = some equals
  · rw [hhead]
    rfl
  · simp [hhead]

theorem advRound_empty_field (f : UrlField) (s : Bytes) :
    advRound [] (f.nameText ++ equals :: s) = some (if f.name = [] then
      match cutFirst [amp] s with
      | none => .field s none
      | some (value, rest) => .field value (some rest)
      else .passed (f.nameText ++ equals :: s)) := by
  have hfree := f.name_encoded.no_separator.2
  rw [advRound_empty]
  cases hname : f.nameText with
  | nil =>
    rw [if_pos (f.name_encoded.eq_nil_iff.mp hname)]
    rfl
  | cons c n =>
    have hne : f.name ≠ [] := by
      intro hnil
      rw [f.name_encoded.eq_nil_iff.mpr hnil] at hname
      cases hname
    have hc : c ≠ equals := by
      rintro rfl
      exact hfree (hname ▸ List.mem_cons_self)
    simp [hc, hne]

theorem advLoop_empty {fields : List UrlField} {maxlen : Nat}
    (hfit : ∀ f ∈ fields, f.value.length ≤ maxlen) {index : Int} {count k : Nat}
    (hindex : index = count + k ∨ index < 0 ∧ k = 0) :
    advLoop maxlen [] index count (urlEncode fields) =
      if (fields.take (k + 1)).all fun f => f.name == [] then
        some (fields[k]?.map UrlField.value)
      else none := by
  have hgoal : index < 0 ∨ index = count ↔ k = 0 := by omega
  induction fields using urlEncode.induct generalizing count k with
  | case1 =>
    rw [urlEncode, advLoop]
    simp
  | case2 f =>
    have hstart : f.text ≠ [] := by simp [UrlField.text]
    have hcopy := copyValue_encoded f.value_encoded (hfit f List.mem_cons_self)
    rw [urlEncode, advLoop_round hstart, UrlField.text, advRound_empty_field,
      cutFirst_singleton_none f.value_encoded.no_separator.1]
    by_cases hname : f.name = []
    · cases k with
      | zero => simp [hname, hgoal, hcopy]
      | succ k => simp [hname, hgoal]
    · simp [hname]
  | case3 f g fs ih =>
    have hstart : f.text ++ amp :: urlEncode (g :: fs) ≠ [] := by simp
    have hcopy := copyValue_encoded f.value_encoded (hfit f List.mem_cons_self)
    rw [urlEncode, advLoop_round hstart, UrlField.text, List.append_assoc, List.cons_append,
      advRound_empty_field, cutFirst_singleton f.value_encoded.no_separator.1]
    by_cases hname : f.name = []
    · cases k with
      | zero => simp [hname, hgoal, hcopy]
      | succ k =>
        have hnext : index = ↑(count + 1) + ↑k ∨ index < 0 ∧ k = 0 := by omega
        have hrest := ih (fun h hh => hfit h (List.mem_cons_of_mem f hh)) hnext (by omega)
        rw [List.take_succ_cons, List.getElem?_cons_succ, List.all_cons, hname, beq_self_eq_true,
          Bool.true_and, ← hrest]
        simp [hgoal]
    · simp [hname]

/-- The value of the field with that number among those of a name. -/
def urlValue (fields : List UrlField) (param : Bytes) (i : Nat) : Option Bytes :=
  (fields.filter fun f => f.name == param)[i]?.map UrlField.value

/-- The field that is taken for the one that is asked for has its value. A name that is longer
than the query is not searched; a name that is must fit `memstr`, an empty one is right when no
other field is met, and one with a separator, which no field has, when the encoded fields do not
have it at that many places. -/
def AdvReads (fields : List UrlField) (param : Bytes) (i : Nat) : Prop :=
  (urlEncode fields).length < param.length ∨
    param.length ≤ 127 ∧
      if param = [] then ∀ f ∈ fields.take (i + 1), f.name = []
      else if amp ∈ param ∨ equals ∈ param then places param (urlEncode fields) ≤ i
      else (fields.filter fun f => taken param f.nameText)[i]?.map UrlField.value =
        urlValue fields param i

theorem getElem?_filter_of_take {α : Type} {p : α → Bool} {xs : List α} {k : Nat}
    (h : (xs.take (k + 1)).all p = true) : (xs.filter p)[k]? = xs[k]? := by
  induction xs generalizing k with
  | nil => rfl
  | cons x xs ih =>
    rw [List.take_succ_cons, List.all_cons, Bool.and_eq_true] at h
    rw [List.filter_cons_of_pos h.1]
    cases k with
    | zero => rfl
    | succ k => exact ih h.2

theorem urlValue_separator {param : Bytes} (h : amp ∈ param ∨ equals ∈ param)
    (fields : List UrlField) (i : Nat) : urlValue fields param i = none := by
  have hnone : (fields.filter fun f => f.name == param) = [] := by
    rw [List.filter_eq_nil_iff]
    intro f hf hname
    rw [beq_iff_eq] at hname
    rcases h with h | h
    · exact f.name_free amp (by decide) (hname ▸ h)
    · exact f.name_free equals (by decide) (hname ▸ h)
  rw [urlValue, hnone]
  rfl

theorem advRound_of_long {param : Bytes} (hlong : ¬ param.length ≤ 127)
    (hpart : ¬ SoughtInPart param) (start : Bytes) : advRound param start = none := by
  rw [advRound, memstr_of_long hlong hpart]

/-- A name that is longer than the query is no field's. -/
theorem urlValue_of_short {fields : List UrlField} {param : Bytes}
    (hshort : (urlEncode fields).length < param.length) (i : Nat) :
    urlValue fields param i = none := by
  have hnamed : (fields.filter fun f => f.name == param) = [] := by
    rw [List.filter_eq_nil_iff]
    intro f hf hname
    have hlen := urlEncode_name_length hf
    have hle := f.name_encoded.length_le
    rw [beq_iff_eq.mp hname] at hle
    omega
  rw [urlValue, hnamed]
  rfl

/-- A name that `memstr` holds: the value of the field of that name is delivered if and only if
the one that is taken for it has this value. -/
theorem advLoop_reads {fields : List UrlField} {maxlen : Nat}
    (hfit : ∀ f ∈ fields, f.value.length ≤ maxlen) {param : Bytes} (hlen : param.length ≤ 127)
    (hshort : ¬ (urlEncode fields).length < param.length) (index : Int) :
    advLoop maxlen param index 0 (urlEncode fields) =
      some (urlValue fields param index.toNat) ↔ AdvReads fields param index.toNat := by
  have hindex : index = ((0 : Nat) : Int) + index.toNat ∨ index < 0 ∧ index.toNat = 0 := by omega
  rw [AdvReads, or_iff_right hshort, and_iff_right hlen]
  by_cases hparam : param = []
  · subst hparam
    rw [if_pos rfl, advLoop_empty hfit hindex]
    split
    · rename_i hall
      apply iff_of_true
      · rw [urlValue, getElem?_filter_of_take hall]
      · intro f hf
        exact beq_iff_eq.mp (List.all_eq_true.mp hall f hf)
    · rename_i hall
      apply iff_of_false
      · rintro ⟨⟩
      · intro hnames
        apply hall
        rw [List.all_eq_true]
        intro f hf
        exact beq_iff_eq.mpr (hnames f hf)
  · rw [if_neg hparam, advLoop_eq hparam hlen maxlen hindex]
    split
    · rename_i hsep
      rw [urlValue_separator hsep, ← takenTexts_length hparam hlen]
      simp
    · rename_i hsep
      rw [not_or] at hsep
      have hcopy : ∀ f ∈ (fields.filter fun f => taken param f.nameText)[index.toNat]?,
          copyValue maxlen f.valueText = f.value := by
        intro f hf
        have hmem := List.mem_of_getElem? hf
        exact copyValue_encoded f.value_encoded (hfit f (List.mem_of_mem_filter hmem))
      have hvalues :
          (fields.filter fun f => taken param f.nameText)[index.toNat]?.map
              (copyValue maxlen ∘ UrlField.valueText) =
            (fields.filter fun f => taken param f.nameText)[index.toNat]?.map UrlField.value :=
        Option.map_congr hcopy
      rw [takenTexts_urlEncode hparam hlen hsep.1 hsep.2, Option.some_inj, List.getElem?_map,
        Option.map_map, hvalues]

/-- A name that is sought in part leaves the fields behind: each round goes on by its full length.
For all others the value is delivered only under the condition. -/
theorem getcgiparamAdv_reads {fields : List UrlField} {maxlen : Nat}
    (hfit : ∀ f ∈ fields, f.value.length ≤ maxlen) (param : Bytes) (index : Int) :
    (AdvReads fields param index.toNat → getcgiparamAdv maxlen (urlEncode fields) param index =
        some (urlValue fields param index.toNat)) ∧
      (getcgiparamAdv maxlen (urlEncode fields) param index =
        some (urlValue fields param index.toNat) →
          AdvReads fields param index.toNat ∨ SoughtInPart param) := by
  by_cases hshort : (urlEncode fields).length < param.length
  · rw [getcgiparamAdv, if_pos hshort, urlValue_of_short hshort]
    exact ⟨fun _ => rfl, fun _ => Or.inl (Or.inl hshort)⟩
  rw [getcgiparamAdv, if_neg hshort]
  by_cases hlen : param.length ≤ 127
  · have hreads := advLoop_reads hfit hlen hshort index
    exact ⟨hreads.mpr, fun h => Or.inl (hreads.mp h)⟩
  · constructor
    · rintro (h | ⟨h, -⟩)
      · exact absurd h hshort
      · exact absurd h hlen
    · intro hvalue
      right
      by_contra hpart
      have hstart : urlEncode fields ≠ [] := by
        intro hnil
        rw [hnil, List.length_nil] at hshort
        omega
      rw [advLoop_round hstart, advRound_of_long hlen hpart] at hvalue
      cases hvalue

end FormReading
