import BoaGateway.Occurrences
import BoaGateway.Paths

/-!
# Form variables

The functions `getcgiparam_adv`, `getcgiparam_multipart` and `memstr`. A pointer into the
query string is the text behind it here, whose length is the remaining length that the
functions keep; behind the query string stands a zero byte. The results are nothing when a
function does not come back, reads behind the text or copies a negative length, and otherwise
the bytes that it delivers, or nothing for `-1`.
-/

namespace CgiParams

open ByteBlocks Texts Paths Occurrences

def amp : UInt8 := 38
def equals : UInt8 := 61
def semicolon : UInt8 := 59
def quote : UInt8 := 34
def apostrophe : UInt8 := 39
def plus : UInt8 := 43
def percent : UInt8 := 37
def blank : UInt8 := 32

/-- `memstr`: the text in front of the place that it finds, and the text from there on. The
needle's size is kept in a `char`: of a long needle only a part is looked for, and with a
negative size the comparison has no bound. -/
def memstr (haystack needle : Bytes) : Option (Option (Bytes × Bytes)) :=
  let needlesize := needle.length % 256
  if 127 < needlesize then none
  else
    let sought := needle.take needlesize
    some ((cutFirst sought haystack).map fun found => (found.1, sought ++ found.2))

theorem memstr_of_fits {needle : Bytes} (hlen : needle.length ≤ 127) (haystack : Bytes) :
    memstr haystack needle =
      some ((cutFirst needle haystack).map fun found => (found.1, needle ++ found.2)) := by
  have hsize : needle.length % 256 = needle.length := Nat.mod_eq_of_lt (by omega)
  rw [memstr, hsize, if_neg (Nat.not_lt_of_ge hlen), List.take_length]

/-- Only a part of the needle is looked for. -/
def SoughtInPart (needle : Bytes) : Prop := 256 ≤ needle.length ∧ needle.length % 256 ≤ 127

/-- What is longer than the `char` holds, and not sought in part, is not sought at all. -/
theorem memstr_of_long {needle : Bytes} (hlong : ¬ needle.length ≤ 127)
    (hpart : ¬ SoughtInPart needle) (haystack : Bytes) : memstr haystack needle = none := by
  have hsize : 127 < needle.length % 256 := by
    rw [SoughtInPart] at hpart
    omega
  exact if_pos hsize

theorem memstr_split {haystack needle before place : Bytes}
    (h : memstr haystack needle = some (some (before, place))) : before ++ place = haystack := by
  rw [memstr] at h
  split at h
  · cases h
  · rw [Option.some_inj, Option.map_eq_some_iff] at h
    obtain ⟨found, hcut, heq⟩ := h
    cases heq
    exact (cutFirst_eq_some hcut).symm

/-- The copy loop of `getcgiparam_adv`, with room for so many bytes. -/
def copyValue : Nat → Bytes → Bytes
  | 0, _ => []
  | _, [] => []
  | y + 1, c :: s =>
    if c = 0 ∨ c = amp then []
    else
      match s with
      | h :: l :: s' =>
        if c = percent ∧ isHex h = true ∧ isHex l = true then
          (16 * hexValue h + hexValue l) :: copyValue y s'
        else (if c = plus then blank else c) :: copyValue y s
      | s => (if c = plus then blank else c) :: copyValue y s

/-- The place that is found is taken for a field's name. -/
def isField (before behind : Bytes) : Bool :=
  (before == [] || before.getLast? == some amp) && behind.head? == some equals

/-- What one round of `getcgiparam_adv` finds: a field, with the text behind its `&`, or a
place that it passes. -/
inductive Round where
  | missing
  | field (value : Bytes) (rest : Option Bytes)
  | passed (behind : Bytes)

/-- One round. The byte behind the name is read where a field could start, and it may lie
behind the query string. -/
def advRound (param start : Bytes) : Option Round :=
  match memstr start param with
  | none => none
  | some none => some .missing
  | some (some (before, place)) =>
    let behind := place.drop param.length
    if (before = [] ∨ before.getLast? = some amp) ∧ place.length < param.length then none
    else if isField before behind = true then
      match cutFirst [amp] behind.tail with
      | none => some (.field behind.tail none)
      | some (value, rest) => some (.field value (some rest))
    else some (.passed behind)

theorem advRound_of_none {param start : Bytes} (hlen : param.length ≤ 127)
    (h : cutFirst param start = none) : advRound param start = some .missing := by
  rw [advRound, memstr_of_fits hlen, h]
  rfl

theorem advRound_of_some {param start before behind : Bytes} (hlen : param.length ≤ 127)
    (h : cutFirst param start = some (before, behind)) :
    advRound param start = some (if isField before behind = true then
      match cutFirst [amp] behind.tail with
      | none => .field behind.tail none
      | some (value, rest) => .field value (some rest)
      else .passed behind) := by
  have hread : ¬ (param ++ behind).length < param.length := by simp
  rw [advRound, memstr_of_fits hlen, h]
  simp only [Option.map_some, List.drop_left, hread, and_false, if_false]
  split
  · cases cutFirst [amp] behind.tail <;> rfl
  · rfl

theorem advRound_ne_none {param : Bytes} (hlen : param.length ≤ 127) (start : Bytes) :
    advRound param start ≠ none := by
  cases hcut : cutFirst param start with
  | none =>
    rw [advRound_of_none hlen hcut]
    exact Option.some_ne_none Round.missing
  | some found =>
    rw [advRound_of_some hlen hcut]
    exact Option.some_ne_none _

/-- A round that finds something looks behind the place of the name. -/
theorem advRound_found {param start : Bytes} {round : Round}
    (h : advRound param start = some round) (hround : round ≠ .missing) :
    ∃ before place : Bytes, before ++ place = start ∧
      ¬ ((before = [] ∨ before.getLast? = some amp) ∧ place.length < param.length) ∧
      round = if isField before (place.drop param.length) = true then
        match cutFirst [amp] (place.drop param.length).tail with
        | none => .field (place.drop param.length).tail none
        | some (value, rest) => .field value (some rest)
        else .passed (place.drop param.length) := by
  rw [advRound] at h
  split at h
  · cases h
  · cases h
    exact absurd rfl hround
  · rename_i before place hfound
    refine ⟨before, place, memstr_split hfound, ?_⟩
    split at h
    · cases h
    · rename_i hread
      refine ⟨hread, ?_⟩
      dsimp only at h
      split at h
      · rename_i hfield
        rw [if_pos hfield]
        split at h <;> cases h <;> rfl
      · rename_i hfield
        rw [if_neg hfield]
        cases h
        rfl

theorem advRound_field_length {param start value rest : Bytes}
    (h : advRound param start = some (.field value (some rest))) : rest.length < start.length := by
  obtain ⟨before, place, hstart, -, hround⟩ := advRound_found h (by rintro ⟨⟩)
  have hlen := congrArg List.length hstart
  rw [List.length_append] at hlen
  split at hround
  · split at hround
    · cases hround
    · rename_i hamp
      cases hround
      have hrest := cutFirst_length hamp
      rw [List.length_singleton, List.length_tail, List.length_drop] at hrest
      omega
  · cases hround

theorem advRound_passed_length {param start behind : Bytes}
    (h : advRound param start = some (.passed behind)) (hparam : param ≠ []) :
    behind.length < start.length := by
  obtain ⟨before, place, hstart, hread, hround⟩ := advRound_found h (by rintro ⟨⟩)
  have hlen := congrArg List.length hstart
  rw [List.length_append] at hlen
  have hpos := List.length_pos_iff.mpr hparam
  split at hround
  · split at hround <;> cases hround
  · cases hround
    rw [List.length_drop]
    cases before with
    | nil =>
      have hplace : ¬ place.length < param.length := fun hlt => hread ⟨Or.inl rfl, hlt⟩
      omega
    | cons c before =>
      rw [List.length_cons] at hlen
      omega

/-- The search loop of `getcgiparam_adv`. With an empty name it can stand still. -/
def advLoop (maxlen : Nat) (param : Bytes) (index : Int) (count : Nat) (start : Bytes) :
    Option (Option Bytes) :=
  if start = [] then some none
  else
    match hround : advRound param start with
    | none => none
    | some .missing => some none
    | some (.field value none) =>
      if index < 0 ∨ index = count then some (some (copyValue maxlen value)) else some none
    | some (.field value (some rest)) =>
      if index < 0 ∨ index = count then some (some (copyValue maxlen value))
      else advLoop maxlen param index (count + 1) rest
    | some (.passed behind) =>
      if hparam : param = [] then none else advLoop maxlen param index count behind
termination_by start.length
decreasing_by
  · exact advRound_field_length hround
  · exact advRound_passed_length hround hparam

/-- `getcgiparam_adv`. -/
def getcgiparamAdv (maxlen : Nat) (query param : Bytes) (index : Int) : Option (Option Bytes) :=
  if query.length < param.length then some none else advLoop maxlen param index 0 query

def crlfcrlf : Bytes := [13, 10, 13, 10]

def endsName (c : UInt8) : Bool := c == quote || c == semicolon || c == apostrophe

/-- The headers of a part name the variable; behind them stands `body`. The byte behind the
name may lie behind the whole text. -/
def namesParam (headers body param : Bytes) : Option Bool :=
  match cutFirst (ascii "name=") headers with
  | none => some false
  | some (_, rest) =>
    match memstr rest param with
    | none => none
    | some none => some false
    | some (some (_, place)) =>
      if (place ++ body).length < param.length then none
      else some (((place ++ body).drop param.length).head?.any endsName)

/-- The search loop of `getcgiparam_multipart`. A value that has no line end behind it has a
negative length. -/
def multipartLoop (maxlen : Nat) (boundary param start : Bytes) : Option (Option Bytes) :=
  if start = [] then some none
  else
    match hfound : cutFirst boundary start with
    | none => some none
    | some (_, part) =>
      match hend : cutFirst crlfcrlf part with
      | none => if hb : boundary = [] then none else multipartLoop maxlen boundary param part
      | some (headers, body) =>
        match namesParam (headers ++ crlfcrlf) body param with
        | none => none
        | some false => multipartLoop maxlen boundary param body
        | some true =>
          match cutFirst boundary body with
          | none => some none
          | some (value, _) =>
            if value.length < 2 then none
            else if value.length - 2 < maxlen then some (some (value.take (value.length - 2)))
            else some none
termination_by start.length
decreasing_by
  · have hlen := cutFirst_length hfound
    have hpos := List.length_pos_iff.mpr hb
    omega
  · have hlen := cutFirst_length hfound
    have hbody := cutFirst_length hend
    have hpos : 0 < crlfcrlf.length := by decide
    omega

/-- `getcgiparam_multipart`. -/
def getcgiparamMultipart (maxlen : Nat) (contentType query param : Bytes) :
    Option (Option Bytes) :=
  if query.length < param.length then some none
  else
    match cutFirst (ascii "boundary=") contentType with
    | none => some none
    | some (_, s) =>
      let boundary := s.takeWhile fun c => c != semicolon
      if 125 < boundary.length then some none
      else multipartLoop maxlen (ascii "--" ++ boundary) param query

end CgiParams
