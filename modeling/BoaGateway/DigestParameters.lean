import BoaGateway.AuthFindValue
import BoaGateway.Occurrences

/-!
# Digest parameters

The parameters of a Digest authorization in any order, and when `auth_find_value` delivers the
value of each name: the text is read from the word `username` on, cut at every comma, and only ten
pieces are looked at, so the first name begins with that word, no value has a comma and no blank
stands behind one.
-/

namespace DigestParameters

open ByteBlocks Texts MibValue Tokens AuthFindValue

/-- One parameter, with the blanks around it. -/
structure Param where
  pad : Bytes
  name : Bytes
  quoted : Bool
  value : Bytes
  trail : Bytes
  pad_blank : ∀ c ∈ pad, isSpace c = true
  trail_blank : ∀ c ∈ trail, isSpace c = true
  name_ne : name ≠ []
  name_word : ∀ c ∈ name, isSpace c = false ∧ c ≠ 0 ∧ c ≠ 34 ∧ c ≠ 44 ∧ c ≠ 61
  value_text : ∀ c ∈ value, c ≠ 0 ∧ c ≠ 34
  value_word : quoted = false → ∀ c ∈ value, isSpace c = false ∧ c ≠ 44

/-- The value as it stands behind the equal sign. -/
def Param.body (p : Param) : Bytes := if p.quoted then 34 :: (p.value ++ [34]) else p.value

def Param.text (p : Param) : Bytes := p.pad ++ (p.name ++ 61 :: (p.body ++ p.trail))

structure Header where
  params : List Param
  distinct : (params.map Param.name).Nodup

def Header.text (h : Header) : Bytes := [44].intercalate (h.params.map Param.text)

/-- The value of the parameter with that name, or -1. -/
structure Delivers (h : Header) (token : Bytes) (len : Nat) : Prop where
  named : ∀ p ∈ h.params, p.name = token →
    ∃ buf, authFindValue h.text token len = some ((p.value.length : Int), buf) ∧ p.value <+: buf.1
  missing : (∀ p ∈ h.params, p.name ≠ token) →
    ∃ buf, authFindValue h.text token len = some (-1, buf)

/-- The names and the values that the function can read. -/
structure Readable (h : Header) (len : Nat) : Prop where
  first : ∃ p ∈ h.params.head?, username <+: p.name
  few : h.params.length ≤ 10
  comma : ∀ p ∈ h.params, 44 ∉ p.value
  trail : ∀ p ∈ h.params, p.trail = []
  room : ∀ p ∈ h.params, p.value.length ≤ len

/-- What is looked at for one name: the piece that is taken for it holds the value of the
parameter with that name, or there is neither. -/
def Delivered (h : Header) (token : Bytes) (len : Nat) : Prop :=
  ∃ tmp, strstr h.text username = some tmp ∧
    match firstNamed token ((tokens [44] tmp).take 10) with
    | none => ∀ p ∈ h.params, p.name ≠ token
    | some piece => ∃ p ∈ h.params, p.name = token ∧ Holds piece p.value ∧ p.value.length ≤ len

theorem username_word : ∀ c ∈ username, isSpace c = false ∧ c ≠ 44 ∧ c ≠ 61 := by decide +kernel

theorem username_ne : username ≠ [] := by decide +kernel

section

variable {lead w : Bytes}

theorem rdropWhile_word {t : Bytes} (ht : ∀ c ∈ t, isSpace c = false) (u : Bytes) :
    ∃ v, (t ++ u).rdropWhile isSpace = t ++ v := by
  have hrev : t.reverse.dropWhile isSpace = t.reverse := by
    rw [List.dropWhile_eq_self_iff]
    intro hlen
    have hget := ht _ (List.mem_reverse.mp (List.getElem_mem hlen))
    simpa using hget
  rw [List.rdropWhile, List.reverse_append, List.dropWhile_append]
  split
  · rw [hrev, List.reverse_reverse]
    exact ⟨[], (List.append_nil t).symm⟩
  · rw [List.reverse_append, List.reverse_reverse]
    exact ⟨_, rfl⟩

theorem trim_word (hlead : ∀ c ∈ lead, isSpace c = true) (hne : w ≠ [])
    (hw : ∀ c ∈ w, isSpace c = false) : trim (lead ++ w) = w ∧ trimmed (lead ++ w) = lead ++ w := by
  obtain ⟨c, w', rfl⟩ := List.exists_cons_of_ne_nil hne
  have hc : ¬ isSpace c = true := by simp [hw c List.mem_cons_self]
  have htrim : trim (lead ++ c :: w') = c :: w' := by
    have hlast (hl : c :: w' ≠ []) : ¬ isSpace ((c :: w').getLast hl) = true := by
      simp [hw _ (List.getLast_mem hl)]
    rw [trim, List.dropWhile_append_of_pos hlead, List.dropWhile_cons_of_neg hc]
    exact List.rdropWhile_eq_self_iff.mpr hlast
  constructor
  · exact htrim
  · rw [trimmed, htrim, List.takeWhile_append_of_pos hlead, List.takeWhile_cons_of_neg hc,
      List.append_nil]

/-- A piece is named by what stands between its blanks and the equal sign. -/
theorem strtok_name (hlead : ∀ c ∈ lead, isSpace c = true) (hne : w ≠ [])
    (hw : ∀ c ∈ w, isSpace c = false ∧ c ≠ 61) (rest : Bytes) :
    nameOf (lead ++ (w ++ 61 :: rest)) = some w ∧
      nameLength (lead ++ (w ++ 61 :: rest)) = (lead ++ w).length := by
  have hfree : ∀ c ∈ lead ++ w, c ∉ [61] := by
    intro c hc heq
    rw [List.mem_singleton] at heq
    subst heq
    rcases List.mem_append.mp hc with hc | hc
    · exact absurd (hlead 61 hc) (by decide)
    · exact (hw 61 hc).2 rfl
  obtain ⟨htrim, htrimmed⟩ := trim_word hlead hne fun c hc => (hw c hc).1
  have htok := strtok_front (by simp [hne]) hfree List.mem_cons_self rest
  rw [List.append_assoc] at htok
  rw [nameOf, nameLength, htok]
  exact ⟨congrArg some htrim, congrArg List.length htrimmed⟩

/-- A piece that begins with the word has a name that does. -/
theorem username_name {s name : Bytes} (hs : username <+: s) (h : nameOf s = some name) :
    username <+: name := by
  obtain ⟨u, rfl⟩ := hs
  have hstart {p : UInt8 → Bool} (hp : ∀ c ∈ username, p c = false) (t : Bytes) :
      (username ++ t).dropWhile p = username ++ t := by
    obtain ⟨c, w, hw⟩ := List.exists_cons_of_ne_nil username_ne
    rw [hw] at hp ⊢
    exact List.dropWhile_cons_of_neg (by simp [hp c List.mem_cons_self])
  have hkeep : ∀ c ∈ username, decide (c ∉ [(61 : UInt8)]) = true := by
    intro c hc
    simp [(username_word c hc).2.2]
  obtain ⟨⟨tok, rest⟩, htok, rfl⟩ := Option.map_eq_some_iff.mp h
  rw [strtok, hstart (by simpa using hkeep)] at htok
  split at htok
  · cases htok
  · obtain ⟨rfl, -⟩ := Prod.mk.inj (Option.some.inj htok)
    rw [List.takeWhile_append_of_pos hkeep]
    dsimp only
    rw [trim, hstart fun c hc => (username_word c hc).1]
    obtain ⟨v, hv⟩ := rdropWhile_word (fun c hc => (username_word c hc).1) _
    rw [hv]
    exact List.prefix_append _ _

theorem strstr_spec {s t r : Bytes} (h : strstr s t = some r) : r <:+ s ∧ t <+: r := by
  rw [strstr] at h
  exact ⟨(List.mem_tails ..).mp (List.mem_of_find?_eq_some h),
    List.isPrefixOf_iff_prefix.mp (List.find?_some h)⟩

/-- The search goes over bytes that the word does not begin with. -/
theorem strstr_skip {t s : Bytes} (hlead : ∀ c ∈ lead, t.head? ≠ some c) (hne : t ≠ [])
    (hs : t <+: s) : strstr (lead ++ s) t = some s := by
  induction lead with
  | nil =>
    rw [List.nil_append, strstr]
    cases s with
    | nil => simp [List.prefix_nil.mp hs]
    | cons c s => exact List.find?_cons_of_pos (List.isPrefixOf_iff_prefix.mpr hs)
  | cons c lead ih =>
    obtain ⟨hc, hlead⟩ := List.forall_mem_cons.mp hlead
    have hnot : ¬ t.isPrefixOf (c :: (lead ++ s)) = true := by
      rw [List.isPrefixOf_iff_prefix]
      intro hpre
      obtain ⟨d, t, rfl⟩ := List.exists_cons_of_ne_nil hne
      exact hc (by rw [(List.cons_prefix_cons.mp hpre).1, List.head?_cons])
    rw [strstr, List.cons_append, List.tails_cons, List.find?_cons_of_neg hnot]
    exact ih hlead

end

namespace Param

variable (p : Param)

theorem nameOf_text : nameOf p.text = some p.name ∧
    nameLength p.text = p.pad.length + p.name.length := by
  have hword : ∀ c ∈ p.name, isSpace c = false ∧ c ≠ 61 := by
    intro c hc
    obtain ⟨hspace, -, -, -, hequal⟩ := p.name_word c hc
    exact ⟨hspace, hequal⟩
  have hname := strtok_name p.pad_blank p.name_ne hword (p.body ++ p.trail)
  rwa [List.length_append] at hname

theorem drop_name (k : Nat) :
    p.text.drop (p.pad.length + p.name.length + k) = (61 :: (p.body ++ p.trail)).drop k := by
  rw [Param.text, ← List.append_assoc, ← List.length_append, List.drop_append,
    List.drop_eq_nil_of_le (Nat.le_add_right _ _), Nat.add_sub_cancel_left, List.nil_append]

theorem isString_text :
    isString p.text (p.pad.length + p.name.length) ↔ p.quoted = true ∧ p.trail = [] := by
  have hquote : isSpace 34 = false := by decide
  have hfront : (p.text.drop (p.pad.length + p.name.length)).take 2 = [61, 34] ↔
      (p.body ++ p.trail).head? = some 34 := by
    have hdrop := p.drop_name 0
    rw [Nat.add_zero, List.drop_zero] at hdrop
    rw [hdrop]
    cases p.body ++ p.trail <;> simp
  rw [isString, hfront]
  cases hquoted : p.quoted with
  | false =>
    have hbody : p.body = p.value := by simp [body, hquoted]
    simp only [Bool.false_eq_true, false_and, iff_false, not_and]
    intro hhead
    rw [hbody] at hhead
    rcases List.mem_append.mp (List.mem_of_head? hhead) with hmem | hmem
    · exact absurd rfl (p.value_text 34 hmem).2
    · exact absurd (hquote.symm.trans (p.trail_blank 34 hmem)) (by decide)
  | true =>
    have hbody : p.body = 34 :: (p.value ++ [34]) := by simp [body, hquoted]
    constructor
    · rintro ⟨-, hlast⟩
      refine ⟨rfl, ?_⟩
      by_contra htrail
      have hmem : (34 : UInt8) ∈ p.trail := by
        apply List.mem_of_getLast?
        rw [text, List.getLast?_append_of_ne_nil _ (by simp), List.getLast?_append_of_ne_nil _
          (by simp), ← List.cons_append, List.getLast?_append_of_ne_nil _ htrail] at hlast
        exact hlast
      exact absurd (hquote.symm.trans (p.trail_blank 34 hmem)) (by decide)
    · rintro ⟨-, htrail⟩
      have hend : (34 :: (p.value ++ [34])).getLast? = some 34 := by
        rw [← List.cons_append]
        exact List.getLast?_concat
      rw [text, hbody, htrail]
      simp [hend]

/-- What is delivered for a parameter. -/
def read : Bytes := if p.trail = [] then p.value else p.body ++ p.trail

theorem read_eq_value_iff : p.read = p.value ↔ p.trail = [] := by
  by_cases htrail : p.trail = []
  · simp [read, htrail]
  · have hlen : p.value.length ≤ p.body.length := by
      unfold body
      split
      · simp only [List.length_cons, List.length_append]
        omega
      · exact le_rfl
    have hpos := List.length_pos_of_ne_nil htrail
    constructor
    · intro h
      have hread := congrArg List.length h
      rw [read, if_neg htrail, List.length_append] at hread
      omega
    · intro h
      exact absurd h htrail

theorem copyValue_text : copyValue p.text (nameLength p.text) = some p.read := by
  have hlen : p.text.length = p.pad.length + p.name.length + (p.body.length + p.trail.length + 1) := by
    simp only [text, List.length_append, List.length_cons]
    omega
  have hvalue := p.drop_name 1
  rw [List.drop_succ_cons, List.drop_zero] at hvalue
  rw [copyValue_eq, p.nameOf_text.2]
  simp only [isString_text]
  by_cases hstring : p.quoted = true ∧ p.trail = []
  · have hbody : p.body = 34 :: (p.value ++ [34]) := by simp [body, hstring.1]
    have hinner := p.drop_name 2
    rw [hbody, hstring.2, List.append_nil, List.drop_succ_cons, List.drop_succ_cons,
      List.drop_zero] at hinner
    have htake : p.text.length - (p.pad.length + p.name.length + 3) = p.value.length := by
      rw [hlen, hbody, hstring.2]
      simp only [List.length_cons, List.length_append, List.length_nil]
      omega
    have hroom : p.pad.length + p.name.length + 3 ≤ p.text.length := by
      rw [hlen, hbody]
      simp only [List.length_cons, List.length_append, List.length_nil]
      omega
    rw [if_pos hstring, if_pos hroom, hinner, htake, List.take_left, read, if_pos hstring.2]
  · rw [if_neg hstring, if_pos (by omega), hvalue, read]
    by_cases htrail : p.trail = []
    · have hbody : p.body = p.value := by
        have hquoted : p.quoted = false := by simpa [htrail] using hstring
        simp [body, hquoted]
      rw [if_pos htrail, htrail, hbody, List.append_nil]
    · rw [if_neg htrail]

theorem text_ne : p.text ≠ [] := by simp [text]

theorem text_comma (h : 44 ∉ p.value) : ∀ c ∈ p.text, c ∉ [(44 : UInt8)] := by
  have hcomma : isSpace 44 = false := by decide
  have hblank {b : Bytes} (hb : ∀ c ∈ b, isSpace c = true) : 44 ∉ b := fun hmem =>
    absurd (hcomma.symm.trans (hb 44 hmem)) (by decide)
  have hname : 44 ∉ p.name := fun hmem => (p.name_word 44 hmem).2.2.2.1 rfl
  have hbody : 44 ∉ p.body := by
    unfold body
    split <;> simp [h]
  rintro c hc hcomma
  rw [List.mem_singleton] at hcomma
  subst hcomma
  simp [text, hblank p.pad_blank, hblank p.trail_blank, hname, hbody] at hc

/-- The parameter without the blanks in front of it. -/
def bare : Param := { p with pad := [], pad_blank := fun _ hc => absurd hc List.not_mem_nil }

theorem text_bare : p.text = p.pad ++ p.bare.text := rfl

end Param

variable {h : Header} {token : Bytes} {len : Nat}

theorem firstNamed_texts (ps : List Param) (token : Bytes) :
    firstNamed token ((ps.map Param.text).take 10) =
      ((ps.take 10).find? fun p => p.name = token).map Param.text := by
  rw [← List.map_take, firstNamed, List.find?_map]
  congr 2
  funext p
  simp [p.nameOf_text.1]

/-- With such a first name and without commas in values the function sees the parameters. -/
theorem findValue_eq {p : Param} (hp : p ∈ h.params.head?) (hname : username <+: p.name)
    (hcomma : ∀ q ∈ h.params, 44 ∉ q.value) (token : Bytes) :
    findValue h.text token =
      some (((h.params.take 10).find? fun q => q.name = token).map Param.read) := by
  obtain ⟨ps, hps⟩ : ∃ ps, h.params = p :: ps := by
    cases hparams : h.params with
    | nil =>
      rw [hparams] at hp
      cases hp
    | cons q ps =>
      rw [hparams] at hp
      cases hp
      exact ⟨ps, rfl⟩
  rw [hps] at hcomma ⊢
  have htext : h.text = p.pad ++ [44].intercalate ((p.bare :: ps).map Param.text) := by
    rw [Header.text, hps]
    cases ps with
    | nil => simp [p.text_bare]
    | cons q ps => simp [p.text_bare]
  have hpre : username <+: [44].intercalate ((p.bare :: ps).map Param.text) := by
    have hbare : username <+: p.bare.text := hname.trans (List.prefix_append _ _)
    cases ps with
    | nil => simpa using hbare
    | cons q ps =>
      rw [List.map_cons, List.map_cons, List.intercalate_cons_cons, List.append_assoc]
      exact hbare.trans (List.prefix_append _ _)
  have hpad : ∀ c ∈ p.pad, username.head? ≠ some c := by
    intro c hc hhead
    have hword := (username_word c (List.mem_of_head? hhead)).1
    exact absurd (hword.symm.trans (p.pad_blank c hc)) (by decide)
  have hwords : ∀ w ∈ (p.bare :: ps).map Param.text, w ≠ [] ∧ ∀ c ∈ w, c ∉ [(44 : UInt8)] := by
    intro w hw
    obtain ⟨q, hq, rfl⟩ := List.mem_map.mp hw
    refine ⟨q.text_ne, q.text_comma ?_⟩
    rcases List.mem_cons.mp hq with rfl | hq
    · exact hcomma p List.mem_cons_self
    · exact hcomma q (List.mem_cons_of_mem p hq)
  have hbare : (((p.bare :: ps).take 10).find? fun q => q.name = token).map Param.read =
      (((p :: ps).take 10).find? fun q => q.name = token).map Param.read := by
    rw [List.take_succ_cons, List.take_succ_cons]
    by_cases htoken : p.name = token
    · have hfront : p.bare.name = token := htoken
      rw [List.find?_cons_of_pos (by simpa using hfront),
        List.find?_cons_of_pos (by simpa using htoken)]
      rfl
    · have hfront : p.bare.name ≠ token := htoken
      rw [List.find?_cons_of_neg (by simpa using hfront),
        List.find?_cons_of_neg (by simpa using htoken)]
  rw [findValue, htext, strstr_skip hpad username_ne hpre]
  dsimp only
  rw [tokens_intercalate List.mem_cons_self hwords, findPiece_eq, firstNamed_texts, ← hbare]
  cases ((p.bare :: ps).take 10).find? fun q => q.name = token with
  | none => rfl
  | some q => exact congrArg (Option.map some) q.copyValue_text

/-- Names are those of one parameter. -/
theorem find_named {ps : List Param} (hps : (ps.map Param.name).Nodup) {p : Param} (hp : p ∈ ps) :
    ps.find? (fun q => q.name = p.name) = some p := by
  induction ps with
  | nil => cases hp
  | cons q ps ih =>
    obtain ⟨hq, hps⟩ := List.nodup_cons.mp hps
    rcases List.mem_cons.mp hp with rfl | hp
    · exact List.find?_cons_of_pos (by simp)
    · have hne : q.name ≠ p.name := fun heq => hq (heq ▸ List.mem_map_of_mem hp)
      rw [List.find?_cons_of_neg (by simpa using hne)]
      exact ih hps hp

theorem delivers_of_readable (hr : Readable h len) (token : Bytes) : Delivers h token len := by
  obtain ⟨p, hp, hname⟩ := hr.first
  have hvalue := findValue_eq hp hname hr.comma token
  rw [List.take_of_length_le hr.few] at hvalue
  constructor
  · rintro q hq rfl
    rw [find_named h.distinct hq, Option.map_some, q.read_eq_value_iff.mpr (hr.trail q hq)] at hvalue
    exact authFindValue_found hvalue (hr.room q hq)
  · intro hnames
    have hnone : h.params.find? (fun q => q.name = token) = none := by simpa using hnames
    rw [hnone] at hvalue
    exact ⟨.zeros len, authFindValue_missing hvalue len⟩

theorem findValue_piece {input v : Bytes} (hv : findValue input token = some (some v)) :
    ∃ tmp piece, strstr input username = some tmp ∧ piece ∈ tokens [44] tmp ∧
      nameOf piece = some token ∧ v <:+: piece := by
  cases htmp : strstr input username with
  | none =>
    rw [findValue, htmp] at hv
    cases hv
  | some tmp =>
    rw [findValue, htmp] at hv
    dsimp only at hv
    rw [findPiece_eq] at hv
    cases hpiece : firstNamed token ((tokens [44] tmp).take 10) with
    | none =>
      rw [hpiece] at hv
      cases hv
    | some piece =>
      rw [hpiece] at hv
      obtain ⟨w, hw, heq⟩ := Option.map_eq_some_iff.mp hv
      cases heq
      have hmem := List.mem_of_find?_eq_some hpiece
      have hname := List.find?_some hpiece
      exact ⟨tmp, piece, rfl, List.mem_of_mem_take hmem, by simpa using hname, copyValue_infix hw⟩

/-- What is delivered for a parameter is its value. -/
theorem findValue_of_delivered {p : Param} (hd : Delivers h p.name len) (hp : p ∈ h.params) :
    findValue h.text p.name = some (some p.value) ∧ p.value.length ≤ len := by
  obtain ⟨buf, hres, hbuf⟩ := hd.named p hp rfl
  rcases found_of_authFindValue hres with ⟨-, hmissing⟩ | ⟨v, hv, hlen, hlength, hvbuf⟩
  · omega
  · have heq : v.length = p.value.length := by omega
    have hvalue : v = p.value := by
      rw [List.prefix_iff_eq_take.mp hvbuf, List.prefix_iff_eq_take.mp hbuf, heq]
    subst hvalue
    exact ⟨hv, hlen⟩

theorem findValue_of_delivers (hall : ∀ token, Delivers h token len) {p : Param}
    (hp : p ∈ h.params) :
    findValue h.text p.name = some (some p.value) ∧ p.value.length ≤ len :=
  findValue_of_delivered (hall p.name) hp

theorem findValue_of_missing (hd : Delivers h token len) (hnames : ∀ p ∈ h.params, p.name ≠ token) :
    findValue h.text token = some none := by
  obtain ⟨buf, hres⟩ := hd.missing hnames
  rcases found_of_authFindValue hres with ⟨hnone, -⟩ | ⟨v, -, -, hlength, -⟩
  · exact hnone
  · omega

theorem delivered_of_delivers (hd : Delivers h token len) : Delivered h token len := by
  have hfind : ∃ tmp, strstr h.text username = some tmp := by
    cases htmp : strstr h.text username with
    | some tmp => exact ⟨tmp, rfl⟩
    | none =>
      have hnull : findValue h.text token = none := by rw [findValue, htmp]
      by_cases hnamed : ∃ p ∈ h.params, p.name = token
      · obtain ⟨p, hp, rfl⟩ := hnamed
        rw [(findValue_of_delivered hd hp).1] at hnull
        cases hnull
      · rw [findValue_of_missing hd fun p hp hname => hnamed ⟨p, hp, hname⟩] at hnull
        cases hnull
  obtain ⟨tmp, htmp⟩ := hfind
  have hvalue : findValue h.text token = findPiece token ((tokens [44] tmp).take 10) := by
    rw [findValue, htmp]
  rw [findPiece_eq] at hvalue
  refine ⟨tmp, htmp, ?_⟩
  cases hpiece : firstNamed token ((tokens [44] tmp).take 10) with
  | none =>
    rintro p hp rfl
    rw [hpiece, (findValue_of_delivered hd hp).1] at hvalue
    cases hvalue
  | some piece =>
    rw [hpiece] at hvalue
    dsimp only at hvalue
    by_cases hnamed : ∃ p ∈ h.params, p.name = token
    · obtain ⟨p, hp, rfl⟩ := hnamed
      obtain ⟨hfound, hlen⟩ := findValue_of_delivered hd hp
      rw [hfound] at hvalue
      obtain ⟨v, hcopy, hv⟩ := Option.map_eq_some_iff.mp hvalue.symm
      obtain rfl := Option.some.inj hv
      exact ⟨p, hp, rfl, copyValue_eq_some_iff.mp hcopy, hlen⟩
    · rw [findValue_of_missing hd fun p hp hname => hnamed ⟨p, hp, hname⟩] at hvalue
      obtain ⟨v, -, hv⟩ := Option.map_eq_some_iff.mp hvalue.symm
      cases hv

theorem delivers_of_delivered (hd : Delivered h token len) : Delivers h token len := by
  obtain ⟨tmp, htmp, hpiece⟩ := hd
  have hvalue : findValue h.text token = findPiece token ((tokens [44] tmp).take 10) := by
    rw [findValue, htmp]
  rw [findPiece_eq] at hvalue
  cases hfirst : firstNamed token ((tokens [44] tmp).take 10) with
  | none =>
    rw [hfirst] at hpiece hvalue
    exact ⟨fun p hp hname => absurd hname (hpiece p hp),
      fun _ => ⟨.zeros len, authFindValue_missing hvalue len⟩⟩
  | some piece =>
    rw [hfirst] at hpiece hvalue
    dsimp only at hpiece hvalue
    obtain ⟨p, hp, hname, hholds, hlen⟩ := hpiece
    rw [copyValue_eq_some_iff.mpr hholds, Option.map_some] at hvalue
    constructor
    · intro q hq hqname
      have hsame : q = p := by
        have hfindq := find_named h.distinct hq
        rw [hqname, ← hname, find_named h.distinct hp] at hfindq
        exact (Option.some.inj hfindq).symm
      rw [hsame]
      exact authFindValue_found hvalue hlen
    · intro hnames
      exact absurd hname (hnames p hp)

theorem comma_of_delivers (hall : ∀ token, Delivers h token len) :
    ∀ p ∈ h.params, 44 ∉ p.value := by
  intro p hp hcomma
  obtain ⟨tmp, piece, -, hpiece, -, hpart⟩ := findValue_piece (findValue_of_delivers hall hp).1
  exact tokens_free tmp piece hpiece 44 (hpart.subset hcomma) List.mem_cons_self

/-- Text from the word on that is cut at the commas: the rest of a parameter, and those behind. -/
theorem tokens_suffix {ps : List Param} (hcomma : ∀ p ∈ ps, 44 ∉ p.value) {tmp : Bytes}
    (hsuffix : tmp <:+ [44].intercalate (ps.map Param.text)) (hpre : username <+: tmp) :
    ∃ front p back s, ps = front ++ p :: back ∧ username <+: s ∧
      tokens [44] tmp = s :: back.map Param.text := by
  have h44 : (44 : UInt8) ∉ username := fun hmem => (username_word 44 hmem).2.1 rfl
  have hne : tmp ≠ [] := fun hnil => username_ne (List.prefix_nil.mp (hnil ▸ hpre))
  have hhead : tmp.head? ≠ some 44 := by
    obtain ⟨u, rfl⟩ := hpre
    rw [List.head?_append_of_ne_nil _ username_ne]
    exact fun h => h44 (List.mem_of_head? h)
  obtain ⟨front, w, ws, s, hws, hsw, hsne, rfl⟩ := suffix_intercalate hne hhead hsuffix
  obtain ⟨front, qs, rfl, rfl, hqs⟩ := List.map_eq_append_iff.mp hws
  obtain ⟨p, back, rfl, rfl, rfl⟩ := List.map_eq_cons_iff.mp hqs
  have hwords : ∀ w ∈ s :: back.map Param.text, w ≠ [] ∧ ∀ c ∈ w, c ∉ [(44 : UInt8)] := by
    refine List.forall_mem_cons.mpr ⟨⟨hsne, fun c hc => ?_⟩, fun w hw => ?_⟩
    · exact p.text_comma (hcomma p (by simp)) c (hsw.subset hc)
    · obtain ⟨q, hq, rfl⟩ := List.mem_map.mp hw
      exact ⟨q.text_ne, q.text_comma (hcomma q (by simp [hq]))⟩
  refine ⟨front, p, back, s, rfl, ?_, tokens_intercalate List.mem_cons_self hwords⟩
  cases hback : back.map Param.text with
  | nil => simpa [hback] using hpre
  | cons v ws =>
    rw [hback, List.intercalate_cons_cons, List.append_assoc, List.singleton_append] at hpre
    exact (Occurrences.prefix_append_cons_iff h44 s _).mp hpre

theorem first_of_delivers (hall : ∀ token, Delivers h token len) :
    ∃ p ∈ h.params.head?, username <+: p.name := by
  have hcomma := comma_of_delivers hall
  have hdistinct := h.distinct
  cases hps : h.params with
  | nil =>
    obtain ⟨buf, hres⟩ := (hall []).missing (by simp [hps])
    have htext : h.text = [] := by simp [Header.text, hps]
    have hnone : strstr [] username = none := by decide +kernel
    rw [authFindValue, findValue, htext, hnone] at hres
    cases hres
  | cons p ps =>
    refine ⟨p, rfl, ?_⟩
    have hp : p ∈ h.params := hps ▸ List.mem_cons_self
    obtain ⟨tmp, piece, htmp, hpiece, hname, -⟩ := findValue_piece (findValue_of_delivers hall hp).1
    obtain ⟨hsuffix, hpre⟩ := strstr_spec htmp
    obtain ⟨front, q, back, s, heq, hs, htokens⟩ := tokens_suffix hcomma hsuffix hpre
    rw [htokens] at hpiece
    rcases List.mem_cons.mp hpiece with rfl | hpiece
    · exact username_name hs hname
    · -- a parameter behind the word has another name than the first one
      obtain ⟨r, hr, rfl⟩ := List.mem_map.mp hpiece
      have hrp : r.name = p.name := Option.some.inj (r.nameOf_text.1.symm.trans hname)
      have hfront : p ∈ front ++ [q] := by
        rw [hps] at heq
        cases front with
        | nil => simp [(List.cons.inj heq).1]
        | cons p' front => simp [(List.cons.inj heq).1]
      rw [heq, List.append_cons, List.map_append] at hdistinct
      have hdisjoint := (List.nodup_append.mp hdistinct).2.2
      exact absurd hrp.symm
        (hdisjoint _ (List.mem_map_of_mem hfront) _ (List.mem_map_of_mem hr))

theorem readable_of_delivers (hall : ∀ token, Delivers h token len) : Readable h len := by
  have hcomma := comma_of_delivers hall
  have hfirst := first_of_delivers hall
  obtain ⟨p, hp, hname⟩ := hfirst
  -- each parameter is among the first ten
  have hread {q : Param} (hq : q ∈ h.params) :
      ∃ r ∈ h.params.take 10, r.name = q.name ∧ r.read = q.value := by
    have hvalue := (findValue_of_delivers hall hq).1
    rw [findValue_eq hp hname hcomma, Option.some.injEq] at hvalue
    obtain ⟨r, hr, hrq⟩ := Option.map_eq_some_iff.mp hvalue
    have hrname := List.find?_some hr
    exact ⟨r, List.mem_of_find?_eq_some hr, by simpa using hrname, hrq⟩
  have hten : h.params.drop 10 = [] := by
    by_contra hne
    obtain ⟨q, hq⟩ := List.exists_mem_of_ne_nil _ hne
    obtain ⟨r, hr, hrq, -⟩ := hread (List.mem_of_mem_drop hq)
    have hdistinct := h.distinct
    rw [← List.take_append_drop 10 h.params, List.map_append] at hdistinct
    have hdisjoint := (List.nodup_append.mp hdistinct).2.2
    exact hdisjoint _ (List.mem_map_of_mem hr) _ (List.mem_map_of_mem hq) hrq
  refine ⟨⟨p, hp, hname⟩, List.drop_eq_nil_iff.mp hten, hcomma, fun q hq => ?_, fun q hq =>
    (findValue_of_delivers hall hq).2⟩
  obtain ⟨r, hr, hrq, hvalue⟩ := hread hq
  have hrfind := find_named h.distinct (List.mem_of_mem_take hr)
  have hqfind := find_named h.distinct hq
  rw [hrq, hqfind] at hrfind
  cases hrfind
  exact q.read_eq_value_iff.mp hvalue

/-- The function comes to an end inside of its objects if and only if the text has the word and
what is taken for the name fits. It delivers a name of a list if and only if the piece that is
taken for it holds the parameter's value, and each name if and only if the list can be read. -/
theorem auth_find_value_iff (len : Nat) :
    (∀ input token, (authFindValue input token len).isSome ↔ Safe input token len) ∧
      (∀ h token, Delivers h token len ↔ Delivered h token len) ∧
        ∀ h : Header, (∀ token, Delivers h token len) ↔ Readable h len := by
  refine ⟨?_, ?_, ?_⟩
  · intro input token
    exact authFindValue_isSome_iff
  · intro h token
    exact ⟨delivered_of_delivers, delivers_of_delivered⟩
  · intro h
    constructor
    · exact readable_of_delivers
    · exact delivers_of_readable

def realmParam : Param where
  pad := []
  name := ascii "realm"
  quoted := true
  value := ascii "gateway"
  trail := []
  pad_blank _ hc := absurd hc List.not_mem_nil
  trail_blank _ hc := absurd hc List.not_mem_nil
  name_ne := by decide +kernel
  name_word := by decide +kernel
  value_text := by decide +kernel
  value_word := nofun

def usernameParam : Param where
  pad := [32]
  name := username
  quoted := true
  value := ascii "user"
  trail := []
  pad_blank := by decide +kernel
  trail_blank _ hc := absurd hc List.not_mem_nil
  name_ne := username_ne
  name_word := by decide +kernel
  value_text := by decide +kernel
  value_word := nofun

/-- A list whose first name is another one. -/
def realmFirst : Header where
  params := [realmParam, usernameParam]
  distinct := by decide +kernel

/-- What stands in front of the word `username` is not found, and without it a null pointer is
read. -/
theorem realm_not_found :
    ¬ Delivers realmFirst (ascii "realm") 34 ∧
      authFindValue realmParam.text (ascii "realm") 34 = none := by
  constructor
  · intro h
    obtain ⟨buf, hres, -⟩ := h.named realmParam List.mem_cons_self rfl
    have htmp : strstr realmFirst.text username =
        some ([44].intercalate [usernameParam.bare.text]) := by
      decide +kernel
    have htokens : tokens [44] ([44].intercalate [usernameParam.bare.text]) =
        [usernameParam.bare.text] := by
      apply tokens_intercalate List.mem_cons_self
      decide +kernel
    have hpieces : findPiece (ascii "realm") ([usernameParam.bare.text].take 10) = some none := by
      decide +kernel
    have hmissing : findValue realmFirst.text (ascii "realm") = some none := by
      rw [findValue, htmp]
      dsimp only
      rw [htokens, hpieces]
    rw [authFindValue_missing hmissing, Option.some.injEq, Prod.mk.injEq] at hres
    exact absurd hres.1 (by decide +kernel)
  · have htmp : strstr realmParam.text username = none := by decide +kernel
    rw [authFindValue, findValue, htmp]

end DigestParameters
