import BoaGateway.Tokens
import BoaGateway.MibValue
import BoaGateway.Texts
import Mathlib.Data.List.DropRight

/-!
# `auth_find_value`

The value of a name in the text of a Digest authorization. The text is cut at commas from the
word `username` on, each of the first ten pieces at its first equal sign, and the value is copied
out of a second copy of the piece, at a place that is counted from the length of the name.
-/

namespace AuthFindValue

open ByteBlocks Texts MibValue Tokens

def username : Bytes := ascii "username"

/-- `trim` without its effect on the argument. -/
def trim (input : Bytes) : Bytes := (input.dropWhile isSpace).rdropWhile isSpace

/-- What `trim` makes of its argument: the blanks in front stay. -/
def trimmed (input : Bytes) : Bytes := input.takeWhile isSpace ++ trim input

/-- The piece ends with a quote, and behind a name of length `n` stand an equal sign and one. -/
def isString (buf : Bytes) (n : Nat) : Prop := (buf.drop n).take 2 = [61, 34] ∧ buf.getLast? = some 34

instance (buf : Bytes) (n : Nat) : Decidable (isString buf n) := instDecidableAnd

/-- The copy of the value. With a length of -1 `strncpy` writes up to the end of the memory. -/
def copyValue (buf : Bytes) (n : Nat) : Option Bytes :=
  let offset := if isString buf n then n + 2 else n + 1
  let valLen : Int := if isString buf n then buf.length - offset - 1 else buf.length - offset
  if valLen < 0 then none else some ((buf.drop offset).take valLen.toNat)

/-- The loop over the pieces; the inner `none` is a null `*ppVal`. -/
def findPiece (token : Bytes) : List Bytes → Option (Option Bytes)
  | [] => some none
  | buf :: toks =>
    match strtok [61] buf with
    | none => findPiece token toks
    | some (tok, _) =>
      if trim tok = token then (copyValue buf (trimmed tok).length).map some
      else findPiece token toks

/-- `_auth_find_value`. -/
def findValue (input token : Bytes) : Option (Option Bytes) :=
  match strstr input username with
  -- `strdup` of a null pointer
  | none => none
  | some tmp => findPiece token ((tokens [44] tmp).take 10)

/-- The result of `auth_find_value`, and `buf` behind it. -/
def authFindValue (input token : Bytes) (len : Nat) : Option (Int × Block len) :=
  match findValue input token with
  | none => none
  | some none => some (-1, .zeros len)
  | some (some pc) => ((Block.zeros len).write 0 pc).map fun buf => (pc.length, buf)

/-- The name of a piece. -/
def nameOf (piece : Bytes) : Option Bytes := (strtok [61] piece).map fun r => trim r.1

/-- How much of a piece is taken for its name. -/
def nameLength (piece : Bytes) : Nat := ((strtok [61] piece).map fun r => (trimmed r.1).length).getD 0

/-- The first piece with a name. -/
def firstNamed (token : Bytes) (toks : List Bytes) : Option Bytes :=
  toks.find? fun piece => nameOf piece = some token

theorem findPiece_eq (token : Bytes) (toks : List Bytes) :
    findPiece token toks =
      match firstNamed token toks with
      | none => some none
      | some piece => (copyValue piece (nameLength piece)).map some := by
  induction toks with
  | nil => rfl
  | cons buf toks ih =>
    have hcons : firstNamed token (buf :: toks) =
        if nameOf buf = some token then some buf else firstNamed token toks := by
      rw [firstNamed, List.find?_cons]
      by_cases hname : nameOf buf = some token
      · simp [hname]
      · simp [hname, firstNamed]
    rw [findPiece, hcons]
    cases htok : strtok [61] buf with
    | none =>
      have hname : nameOf buf = none := by simp [nameOf, htok]
      simp [hname, ih]
    | some res =>
      have hname : nameOf buf = some (trim res.1) := by simp [nameOf, htok]
      have hlength : nameLength buf = (trimmed res.1).length := by simp [nameLength, htok]
      by_cases htoken : trim res.1 = token
      · simp [hname, htoken, hlength]
      · simp [hname, htoken, ih]

/-- Behind the name there is a value, and it has room. -/
def Fits (len : Nat) (piece : Bytes) : Prop :=
  if isString piece (nameLength piece) then
    nameLength piece + 3 ≤ piece.length ∧ piece.length ≤ nameLength piece + 3 + len
  else nameLength piece + 1 ≤ piece.length ∧ piece.length ≤ nameLength piece + 1 + len

/-- The text has the word `username`, and the piece that is taken for the name fits. -/
def Safe (input token : Bytes) (len : Nat) : Prop :=
  ∃ tmp, strstr input username = some tmp ∧
    ∀ piece ∈ firstNamed token ((tokens [44] tmp).take 10), Fits len piece

theorem copyValue_eq {buf : Bytes} {n : Nat} :
    copyValue buf n =
      if isString buf n then
        if n + 3 ≤ buf.length then some ((buf.drop (n + 2)).take (buf.length - (n + 3))) else none
      else if n + 1 ≤ buf.length then some (buf.drop (n + 1)) else none := by
  unfold copyValue
  by_cases hstring : isString buf n
  · simp only [if_pos hstring]
    by_cases hlen : n + 3 ≤ buf.length
    · have hvalLen : ((buf.length : Int) - (n + 2 : Nat) - 1).toNat = buf.length - (n + 3) := by omega
      rw [if_pos hlen, if_neg (by omega), hvalLen]
    · rw [if_neg hlen, if_pos (by omega)]
  · simp only [if_neg hstring]
    by_cases hlen : n + 1 ≤ buf.length
    · have hvalLen : ((buf.length : Int) - (n + 1 : Nat)).toNat = (buf.drop (n + 1)).length := by
        rw [List.length_drop]
        omega
      rw [if_pos hlen, if_neg (by omega), hvalLen, List.take_length]
    · rw [if_neg hlen, if_pos (by omega)]

theorem copyValue_infix {buf v : Bytes} {n : Nat} (h : copyValue buf n = some v) : v <:+: buf := by
  rw [copyValue_eq] at h
  split at h
  · split at h
    · cases h
      exact (List.take_prefix _ _).isInfix.trans (List.drop_suffix _ _).isInfix
    · cases h
  · split at h
    · cases h
      exact (List.drop_suffix _ _).isInfix
    · cases h

/-- Behind the name stands the value, in quotes or behind a single byte. -/
def Holds (piece v : Bytes) : Prop :=
  if isString piece (nameLength piece) then
    piece.drop (nameLength piece) = 61 :: 34 :: (v ++ [34])
  else ∃ c, piece.drop (nameLength piece) = c :: v

theorem copyValue_eq_some_iff {piece v : Bytes} :
    copyValue piece (nameLength piece) = some v ↔ Holds piece v := by
  rw [copyValue_eq, Holds]
  generalize nameLength piece = n
  by_cases hstring : isString piece n
  · rw [if_pos hstring, if_pos hstring]
    obtain ⟨hfront, hlast⟩ := hstring
    -- `r` is what stands behind the opening quote
    obtain ⟨r, hr⟩ : ∃ r, piece.drop n = 61 :: 34 :: r := by
      refine ⟨(piece.drop n).drop 2, ?_⟩
      nth_rewrite 1 [← List.take_append_drop 2 (piece.drop n)]
      rw [hfront]
      rfl
    have hlen := congrArg List.length hr
    rw [List.length_drop, List.length_cons, List.length_cons] at hlen
    have hbehind : piece.drop (n + 2) = r := by
      rw [← List.drop_drop, hr]
      rfl
    rw [hbehind, hr]
    rcases List.eq_nil_or_concat r with rfl | ⟨w, c, rfl⟩
    · rw [if_neg (by rw [List.length_nil] at hlen; omega)]
      simp
    · have hc : c = 34 := by
        rw [← List.take_append_drop n piece, hr] at hlast
        simpa [List.getLast?_cons] using hlast
      rw [List.concat_eq_append, List.length_append, List.length_singleton] at hlen
      have hw : piece.length - (n + 3) = w.length := by omega
      rw [if_pos (by omega), hw, List.concat_eq_append, List.take_left, hc]
      simp
  · rw [if_neg hstring, if_neg hstring]
    cases hdrop : piece.drop n with
    | nil =>
      have hshort : ¬ n + 1 ≤ piece.length := by
        have hle := List.drop_eq_nil_iff.mp hdrop
        omega
      rw [if_neg hshort]
      simp
    | cons c r =>
      have hlen := congrArg List.length hdrop
      rw [List.length_drop, List.length_cons] at hlen
      have hbehind : piece.drop (n + 1) = r := by
        rw [← List.drop_drop, hdrop]
        rfl
      rw [if_pos (by omega), hbehind]
      simp

theorem fits_iff {len : Nat} {piece : Bytes} :
    Fits len piece ↔ ∃ v, copyValue piece (nameLength piece) = some v ∧ v.length ≤ len := by
  rw [Fits, copyValue_eq]
  by_cases hstring : isString piece (nameLength piece)
  · rw [if_pos hstring, if_pos hstring]
    by_cases hlen : nameLength piece + 3 ≤ piece.length
    · rw [if_pos hlen]
      simp only [Option.some.injEq, exists_eq_left', List.length_take, List.length_drop]
      omega
    · simp [hlen]
  · rw [if_neg hstring, if_neg hstring]
    by_cases hlen : nameLength piece + 1 ≤ piece.length
    · rw [if_pos hlen]
      simp only [Option.some.injEq, exists_eq_left', List.length_drop]
      omega
    · simp [hlen]

theorem authFindValue_missing {input token : Bytes} (h : findValue input token = some none)
    (len : Nat) : authFindValue input token len = some (-1, .zeros len) := by
  rw [authFindValue, h]

theorem authFindValue_found {input token v : Bytes} (h : findValue input token = some (some v))
    {len : Nat} (hlen : v.length ≤ len) :
    ∃ buf, authFindValue input token len = some ((v.length : Int), buf) ∧ v <+: buf.1 := by
  obtain ⟨buf, hwrite, hbuf⟩ := Block.write_head (.zeros len) hlen
  refine ⟨buf, ?_, hbuf⟩
  rw [authFindValue, h]
  dsimp only
  rw [hwrite, Option.map_some]

theorem found_of_authFindValue {input token : Bytes} {len : Nat} {r : Int} {buf : Block len}
    (h : authFindValue input token len = some (r, buf)) :
    findValue input token = some none ∧ r = -1 ∨
      ∃ v, findValue input token = some (some v) ∧ v.length ≤ len ∧ r = v.length ∧ v <+: buf.1 := by
  cases hfind : findValue input token with
  | none =>
    rw [authFindValue, hfind] at h
    cases h
  | some found =>
    cases found with
    | none =>
      rw [authFindValue_missing hfind, Option.some.injEq, Prod.mk.injEq] at h
      exact Or.inl ⟨rfl, h.1.symm⟩
    | some v =>
      by_cases hlen : v.length ≤ len
      · obtain ⟨buf', hfound, hbuf⟩ := authFindValue_found hfind hlen
        rw [h, Option.some.injEq, Prod.mk.injEq] at hfound
        obtain ⟨rfl, rfl⟩ := hfound
        exact Or.inr ⟨v, rfl, hlen, rfl, hbuf⟩
      · rw [authFindValue, hfind] at h
        obtain ⟨buf', hwrite, -⟩ := Option.map_eq_some_iff.mp h
        have hfit := (Block.write_eq_some_iff.mp hwrite).1
        exact absurd ((Nat.zero_add _).symm.trans_le hfit) hlen

/-- Otherwise a null pointer is read, or one of the copies does not end in its object. -/
theorem authFindValue_isSome_iff {input token : Bytes} {len : Nat} :
    (authFindValue input token len).isSome ↔ Safe input token len := by
  have hfind {tmp : Bytes} (htmp : strstr input username = some tmp) :
      findValue input token = findPiece token ((tokens [44] tmp).take 10) := by
    rw [findValue, htmp]
  constructor
  · intro h
    obtain ⟨⟨r, buf⟩, hres⟩ := Option.isSome_iff_exists.mp h
    cases htmp : strstr input username with
    | none =>
      rw [authFindValue, findValue, htmp] at hres
      cases hres
    | some tmp =>
      refine ⟨tmp, htmp, fun piece hpiece => fits_iff.mpr ?_⟩
      have hvalue : findValue input token =
          (copyValue piece (nameLength piece)).map some := by
        rw [hfind htmp, findPiece_eq, Option.mem_def.mp hpiece]
      rcases found_of_authFindValue hres with ⟨hnone, -⟩ | ⟨v, hv, hlen, -⟩
      · rw [hvalue] at hnone
        simp at hnone
      · rw [hvalue] at hv
        exact ⟨v, by simpa using hv, hlen⟩
  · rintro ⟨tmp, htmp, hpieces⟩
    have hvalue := (hfind htmp).trans (findPiece_eq token _)
    cases hpiece : firstNamed token ((tokens [44] tmp).take 10) with
    | none =>
      rw [hpiece] at hvalue
      rw [authFindValue_missing hvalue]
      rfl
    | some piece =>
      obtain ⟨v, hv, hlen⟩ := fits_iff.mp (hpieces piece hpiece)
      rw [hpiece] at hvalue
      dsimp only at hvalue
      rw [hv, Option.map_some] at hvalue
      obtain ⟨buf, hres, -⟩ := authFindValue_found hvalue hlen
      rw [hres]
      rfl

end AuthFindValue
