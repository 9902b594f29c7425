import BoaGateway.Texts

/-!
# Text for HTML

`rtk_util_html_encode` replaces four characters by entities. The buffer has six bytes for each
character, and each replacement clears what is left of it.
-/

namespace HtmlText

open ByteBlocks Texts

/-- `html_code_map`. -/
def htmlCodeMap (c : UInt8) : Option Bytes :=
  if c = 34 then some (ascii "&quot;")
  else if c = 38 then some (ascii "&amp;")
  else if c = 60 then some (ascii "&lt;")
  else if c = 62 then some (ascii "&gt;")
  else none

/-- The loop over the characters, with the place in the buffer. -/
def encodeLoop {n : Nat} : Bytes → Block n → Nat → Option (Block n × Nat)
  | [], buf, p => some (buf, p)
  | c :: s, buf, p =>
    match htmlCodeMap c with
    | some replaceWith =>
      (buf.write p (strncpy replaceWith (n - p))).bind fun buf =>
        encodeLoop s buf (p + replaceWith.length)
    | none => (buf.write p [c]).bind fun buf => encodeLoop s buf (p + 1)

/-- `rtk_util_html_encode`: the buffer. Memory is taken for granted. -/
def rtkUtilHtmlEncode (s : Bytes) : Option (Block (strlen s * 6 + 1)) :=
  (encodeLoop (cstr s) (Block.zeros _) 0).bind fun res => res.1.write res.2 [0]

def entities : List (UInt8 × Bytes) :=
  [(34, ascii "&quot;"), (38, ascii "&amp;"), (60, ascii "&lt;"), (62, ascii "&gt;")]

/-- The entities replaced by their characters, from the left. -/
def decode : Bytes → Bytes
  | [] => []
  | c :: s =>
    match entities.find? fun e => e.2.isPrefixOf (c :: s) with
    | some e => e.1 :: decode (s.drop (e.2.length - 1))
    | none => c :: decode s
termination_by s => s.length
decreasing_by
  all_goals
    simp only [List.length_drop, List.length_cons]
    omega

/-- No character that HTML gives a meaning, but for the entities. -/
def Plain (e : Bytes) : Prop :=
  ((60 : UInt8) ∉ e ∧ (62 : UInt8) ∉ e ∧ (34 : UInt8) ∉ e) ∧
    ∀ before after, e = before ++ 38 :: after → ∃ ent ∈ entities, ent.2 <+: 38 :: after

/-- The text that is written for a string. -/
def Encodes (s e : Bytes) : Prop :=
  ∃ buf, rtkUtilHtmlEncode s = some buf ∧ cstr buf.1 = e

/-- What a character is replaced by. -/
def codeOf (c : UInt8) : Bytes := (htmlCodeMap c).getD [c]

def codesOf (s : Bytes) : Bytes := s.flatMap codeOf

theorem codeOf_cases (c : UInt8) :
    (∃ e ∈ entities, c = e.1 ∧ htmlCodeMap c = some e.2) ∨
      (c ∉ entities.map Prod.fst ∧ htmlCodeMap c = none) := by
  unfold htmlCodeMap
  split
  · exact .inl ⟨(34, ascii "&quot;"), List.mem_cons_self, ‹_›, rfl⟩
  split
  · exact .inl ⟨(38, ascii "&amp;"), by decide, ‹_›, rfl⟩
  split
  · exact .inl ⟨(60, ascii "&lt;"), by decide, ‹_›, rfl⟩
  split
  · exact .inl ⟨(62, ascii "&gt;"), by decide, ‹_›, rfl⟩
  · refine .inr ⟨?_, rfl⟩
    simp only [entities, List.map_cons, List.map_nil, List.mem_cons, List.not_mem_nil, or_false]
    tauto

/-- An entity is short, starts with the ampersand and has no other special character. -/
theorem entity_facts {e : UInt8 × Bytes} (he : e ∈ entities) :
    e.2.length ≤ 6 ∧ (0 : UInt8) ∉ e.2 ∧
      ((60 : UInt8) ∉ e.2 ∧ (62 : UInt8) ∉ e.2 ∧ (34 : UInt8) ∉ e.2) ∧
      ∃ name, e.2 = 38 :: name ∧ (38 : UInt8) ∉ name := by
  simp only [entities, List.mem_cons, List.not_mem_nil, or_false] at he
  rcases he with rfl | rfl | rfl | rfl
  · exact ⟨by decide, by decide, by decide, ascii "quot;", rfl, by decide⟩
  · exact ⟨by decide, by decide, by decide, ascii "amp;", rfl, by decide⟩
  · exact ⟨by decide, by decide, by decide, ascii "lt;", rfl, by decide⟩
  · exact ⟨by decide, by decide, by decide, ascii "gt;", rfl, by decide⟩

theorem codeOf_length (c : UInt8) : (codeOf c).length ≤ 6 := by
  rcases codeOf_cases c with ⟨e, he, -, hcode⟩ | ⟨-, hcode⟩
  · rw [codeOf, hcode]
    exact (entity_facts he).1
  · rw [codeOf, hcode, Option.getD_none, List.length_singleton]
    decide

theorem codesOf_length (s : Bytes) : (codesOf s).length ≤ 6 * s.length := by
  induction s with
  | nil => exact Nat.le_refl _
  | cons c s ih =>
    have hc := codeOf_length c
    rw [codesOf, List.flatMap_cons, List.length_append, List.length_cons]
    rw [codesOf] at ih
    omega

theorem codesOf_append (s t : Bytes) : codesOf (s ++ t) = codesOf s ++ codesOf t :=
  List.flatMap_append

theorem codesOf_nul_free {s : Bytes} (hs : (0 : UInt8) ∉ s) : (0 : UInt8) ∉ codesOf s := by
  intro h
  obtain ⟨c, hc, hzero⟩ := List.mem_flatMap.mp h
  rcases codeOf_cases c with ⟨e, he, -, hcode⟩ | ⟨-, hcode⟩
  · rw [codeOf, hcode] at hzero
    exact (entity_facts he).2.1 hzero
  · rw [codeOf, hcode, Option.getD_none, List.mem_singleton] at hzero
    exact hs (hzero ▸ hc)

theorem strncpy_short {t : Bytes} (ht : (0 : UInt8) ∉ t) {k : Nat} (h : t.length ≤ k) :
    strncpy t k = t ++ List.replicate (k - t.length) 0 := by
  rw [strncpy, strlen, cstr_eq_self ht, List.take_of_length_le h]

/-- A text is written in front of zeros, with zeros of its own behind it. -/
theorem write_front {n : Nat} {buf : Block n} {w : Bytes} {k : Nat}
    (hbuf : buf.1 = w ++ List.replicate k 0) {t : Bytes} {j : Nat} (hfits : t.length + j ≤ k) :
    ∃ buf' : Block n, buf.write w.length (t ++ List.replicate j 0) = some buf' ∧
      buf'.1 = w ++ t ++ List.replicate (k - t.length) 0 := by
  have hdata : (t ++ List.replicate j (0 : UInt8)).length = t.length + j := by
    rw [List.length_append, List.length_replicate]
  obtain ⟨b, hwrite, hb⟩ := Block.write_after hbuf rfl
    (show (t ++ List.replicate j 0).length ≤ (List.replicate k (0 : UInt8)).length by
      rwa [hdata, List.length_replicate])
  have hzeros : j + (k - (t.length + j)) = k - t.length := by omega
  refine ⟨b, hwrite, ?_⟩
  rw [hb, hdata, List.drop_replicate, List.append_assoc, List.append_assoc,
    List.replicate_append_replicate, hzeros, List.append_assoc]

/-- The buffer holds the codes of what was read, with zeros behind them. -/
theorem encodeLoop_eq {n : Nat} {s : Bytes} {buf : Block n} {w : Bytes} {k : Nat}
    (hbuf : buf.1 = w ++ List.replicate k 0) (hroom : (codesOf s).length ≤ k) :
    ∃ buf', encodeLoop s buf w.length = some (buf', (w ++ codesOf s).length) ∧
      buf'.1 = w ++ codesOf s ++ List.replicate (k - (codesOf s).length) 0 := by
  induction s generalizing buf w k with
  | nil =>
    refine ⟨buf, ?_, ?_⟩
    · rw [encodeLoop, codesOf, List.flatMap_nil, List.append_nil]
    · rw [codesOf, List.flatMap_nil, List.append_nil]
      exact hbuf
  | cons c s ih =>
    have hn : n - w.length = k := by
      have hlen := buf.2
      rw [hbuf, List.length_append, List.length_replicate] at hlen
      omega
    have hcodes : codesOf (c :: s) = codeOf c ++ codesOf s := List.flatMap_cons
    rw [hcodes, List.length_append] at hroom
    -- what one turn leaves to the others
    have hturn : ∀ j, (codeOf c).length + j ≤ k → ∃ buf',
        (buf.write w.length (codeOf c ++ List.replicate j 0)).bind (fun buf =>
          encodeLoop s buf (w.length + (codeOf c).length)) =
            some (buf', (w ++ codesOf (c :: s)).length) ∧
          buf'.1 = w ++ codesOf (c :: s) ++
            List.replicate (k - (codesOf (c :: s)).length) 0 := by
      intro j hj
      obtain ⟨b, hwrite, hb⟩ := write_front hbuf hj
      obtain ⟨buf', hloop, hbuf'⟩ := ih hb (by omega)
      refine ⟨buf', ?_, ?_⟩
      · rw [hwrite, Option.bind_some, ← List.length_append, hloop, hcodes, List.append_assoc]
      · rw [hbuf', hcodes, List.length_append, Nat.sub_sub, List.append_assoc w]
    rcases codeOf_cases c with ⟨e, he, -, hcode⟩ | ⟨-, hcode⟩
    · have hself : codeOf c = e.2 := by rw [codeOf, hcode, Option.getD_some]
      rw [hself] at hturn hroom
      rw [encodeLoop, hcode, hn]
      dsimp only
      rw [strncpy_short (entity_facts he).2.1 (by omega)]
      exact hturn _ (by omega)
    · have hself : codeOf c = [c] := by rw [codeOf, hcode, Option.getD_none]
      rw [hself] at hturn hroom
      rw [encodeLoop, hcode]
      exact hturn 0 (by omega)

theorem encodes_codes (s : Bytes) : Encodes s (codesOf (cstr s)) := by
  have hlen : (codesOf (cstr s)).length ≤ strlen s * 6 := by
    rw [Nat.mul_comm]
    exact codesOf_length (cstr s)
  obtain ⟨buf, hloop, hbuf⟩ := @encodeLoop_eq _ (cstr s)
    (Block.zeros (strlen s * 6 + 1)) [] _ rfl (Nat.le_succ_of_le hlen)
  rw [List.nil_append] at hloop hbuf
  obtain ⟨buf', hwrite, hend⟩ := write_front (t := [0]) (j := 0) hbuf
    (by rw [List.length_singleton]; omega)
  rw [List.replicate_zero, List.append_nil] at hwrite
  refine ⟨buf', ?_, ?_⟩
  · rw [rtkUtilHtmlEncode, List.length_nil] at *
    rw [hloop, Option.bind_some]
    exact hwrite
  · rw [hend, List.append_assoc, List.singleton_append,
      cstr_nul_free (codesOf_nul_free (nul_not_mem_cstr s))]

/-- No entity starts with another character. -/
theorem no_entity {c : UInt8} (hc : c ≠ 38) (s : Bytes) :
    (entities.find? fun e => e.2.isPrefixOf (c :: s)) = none := by
  rw [List.find?_eq_none]
  intro e he hfront
  obtain ⟨-, -, -, name, hname, -⟩ := entity_facts he
  rw [hname, List.isPrefixOf_iff_prefix, List.cons_prefix_cons] at hfront
  exact hc hfront.1.symm

/-- An entity is found where it stands. -/
theorem find_entity {e : UInt8 × Bytes} (he : e ∈ entities) (s : Bytes) :
    (entities.find? fun f => f.2.isPrefixOf (e.2 ++ s)) = some e := by
  simp only [entities, List.mem_cons, List.not_mem_nil, or_false] at he
  rcases he with rfl | rfl | rfl | rfl
  · rfl
  · rfl
  · rfl
  · rfl

theorem decode_code (c : UInt8) (s : Bytes) : decode (codeOf c ++ s) = c :: decode s := by
  rcases codeOf_cases c with ⟨e, he, hc, hcode⟩ | ⟨hc, hcode⟩
  · obtain ⟨-, -, -, name, hname, -⟩ := entity_facts he
    have hfind := find_entity he s
    have hself : codeOf c = e.2 := by rw [codeOf, hcode, Option.getD_some]
    rw [hname, List.cons_append] at hfind
    rw [hself, hname, List.cons_append, decode, hfind]
    dsimp only
    rw [hname, List.length_cons, Nat.add_sub_cancel, List.drop_left, hc]
  · have hne : c ≠ 38 := fun h => hc (h ▸ by decide)
    have hself : codeOf c = [c] := by rw [codeOf, hcode, Option.getD_none]
    rw [hself, List.singleton_append, decode, no_entity hne]

theorem decode_codes (s : Bytes) : decode (codesOf s) = s := by
  induction s with
  | nil => rw [codesOf, List.flatMap_nil, decode]
  | cons c s ih =>
    rw [codesOf, List.flatMap_cons, decode_code]
    rw [codesOf] at ih
    rw [ih]

theorem codes_plain (s : Bytes) : Plain (codesOf s) := by
  induction s with
  | nil =>
    refine ⟨⟨List.not_mem_nil, List.not_mem_nil, List.not_mem_nil⟩, fun before after h => ?_⟩
    exact absurd h.symm (List.append_ne_nil_of_right_ne_nil _ (List.cons_ne_nil _ _))
  | cons c s ih =>
    obtain ⟨⟨hless, hgreater, hquote⟩, hamp⟩ := ih
    have hcodes : codesOf (c :: s) = codeOf c ++ codesOf s := List.flatMap_cons
    rw [hcodes]
    rcases codeOf_cases c with ⟨e, he, -, hcode⟩ | ⟨hc, hcode⟩
    · obtain ⟨-, -, ⟨hless', hgreater', hquote'⟩, name, hname, hrest⟩ := entity_facts he
      have hself : codeOf c = e.2 := by rw [codeOf, hcode, Option.getD_some]
      rw [hself]
      refine ⟨⟨?_, ?_, ?_⟩, ?_⟩
      · exact fun h => (List.mem_append.mp h).elim hless' hless
      · exact fun h => (List.mem_append.mp h).elim hgreater' hgreater
      · exact fun h => (List.mem_append.mp h).elim hquote' hquote
      intro before after h
      -- the ampersand is the first character of the entity, or stands behind it
      rcases List.append_eq_append_iff.mp h with ⟨mid, hbefore, hmid⟩ | ⟨mid, hent, hmid⟩
      · exact hamp mid after hmid
      · cases mid with
        | nil => exact hamp [] after hmid.symm
        | cons d mid =>
          obtain ⟨rfl, rfl⟩ := List.cons.inj hmid
          rw [hname] at hent
          cases before with
          | nil =>
            obtain ⟨-, rfl⟩ := List.cons.inj hent
            refine ⟨e, he, ?_⟩
            rw [hname]
            exact List.prefix_append (38 :: name) (codesOf s)
          | cons b before =>
            obtain ⟨-, hinside⟩ := List.cons.inj hent
            refine absurd ?_ hrest
            rw [hinside]
            exact List.mem_append_right before List.mem_cons_self
    · have hself : codeOf c = [c] := by rw [codeOf, hcode, Option.getD_none]
      have hordinary : ∀ d ∈ entities.map Prod.fst, d ≠ c := fun d hd heq => hc (heq ▸ hd)
      rw [hself]
      refine ⟨⟨?_, ?_, ?_⟩, fun before after h => ?_⟩
      · exact fun h => (List.mem_cons.mp h).elim (hordinary 60 (by decide)) hless
      · exact fun h => (List.mem_cons.mp h).elim (hordinary 62 (by decide)) hgreater
      · exact fun h => (List.mem_cons.mp h).elim (hordinary 34 (by decide)) hquote
      · cases before with
        | nil => exact absurd (List.cons.inj h).1.symm (hordinary 38 (by decide))
        | cons b before => exact hamp before after (List.cons.inj h).2

/-- What is written stays in the buffer and means nothing to HTML, gives the string back, and is
made character by character. -/
theorem html_encoded (s t : Bytes) :
    ∃ e f, Encodes s e ∧ Encodes t f ∧ Encodes (cstr s ++ t) (e ++ f) ∧ Plain e ∧
      decode e = cstr s := by
  have hboth : cstr (cstr s ++ t) = cstr s ++ cstr t := cstr_append (nul_not_mem_cstr s) t
  refine ⟨codesOf (cstr s), codesOf (cstr t), encodes_codes s, encodes_codes t, ?_,
    codes_plain _, decode_codes _⟩
  rw [← codesOf_append, ← hboth]
  exact encodes_codes (cstr s ++ t)

end HtmlText
