import BoaGateway.XmlAcceptance
import BoaGateway.XmlSlotOrder

/-!
# Settings files that were cut off

What is left of a file that passed the check when its end is missing. The check takes a first part
of the text for what it is: it refuses the part, unless only blank lines are missing.
-/

namespace XmlTorn

open ByteBlocks MibTypes MibValue Texts TextFiles XmlLines XmlGrammar XmlAcceptance XmlSlotOrder

theorem fgetsLines_flatten (room : Nat) (line s : Bytes) :
    (fgetsLines room line s).flatten = line ++ s := by
  induction s generalizing line with
  | nil =>
    rw [fgetsLines]
    split
    · rename_i hline
      rw [hline]
      rfl
    · simp
  | cons c s ih =>
    rw [fgetsLines]
    split
    · rw [List.flatten_cons, ih]
      simp
    · rw [ih]
      simp

/-- The lines of a first part are lines of the text, up to a last line that has no end yet. -/
theorem fgetsLines_prefix {room : Nat} {line p s : Bytes} (hline : newline ∉ line)
    (hp : p <+: s) :
    fgetsLines room line p <+: fgetsLines room line s ∨
      ∃ ls q l, fgetsLines room line p = ls ++ [q] ∧ ls ++ [l] <+: fgetsLines room line s ∧
        q ≠ [] ∧ q <+: l ∧ newline ∉ q := by
  obtain ⟨t, rfl⟩ := hp
  induction p generalizing line with
  | nil =>
    by_cases hempty : line = []
    · left
      rw [fgetsLines, if_pos hempty]
      exact List.nil_prefix
    · right
      have hfirst : ∀ (s line : Bytes), line ≠ [] →
          ∃ l rest, fgetsLines room line s = l :: rest ∧ line <+: l := by
        intro s
        induction s with
        | nil =>
          intro line hne
          exact ⟨line, [], by rw [fgetsLines, if_neg hne], List.prefix_rfl⟩
        | cons c s ih =>
          intro line hne
          rw [fgetsLines]
          split
          · exact ⟨_, _, rfl, List.prefix_append line [c]⟩
          · obtain ⟨l, rest, hl, hbegins⟩ := ih (line ++ [c]) (by simp)
            exact ⟨l, rest, hl, (List.prefix_append line [c]).trans hbegins⟩
      obtain ⟨l, rest, hl, hbegins⟩ := hfirst ([] ++ t) line hempty
      refine ⟨[], line, l, ?_, ?_, hempty, hbegins, hline⟩
      · rw [fgetsLines, if_neg hempty]
        rfl
      · rw [hl]
        exact ⟨rest, rfl⟩
  | cons c p ih =>
    rw [List.cons_append, fgetsLines, fgetsLines]
    split
    · rcases ih List.not_mem_nil with hall | ⟨ls, q, l, hp, hs, hq⟩
      · left
        exact List.cons_prefix_cons.mpr ⟨rfl, hall⟩
      · right
        refine ⟨(line ++ [c]) :: ls, q, l, ?_, ?_, hq⟩
        · rw [hp]
          rfl
        · exact List.cons_prefix_cons.mpr ⟨rfl, hs⟩
    · rename_i hmore
      rw [not_or] at hmore
      apply ih
      rw [List.mem_append, List.mem_singleton, not_or]
      exact ⟨hline, Ne.symm hmore.1⟩

theorem endsLine_of_newline {q : Bytes} (h : newline ∉ q) : endsLine q = false := by
  rw [endsLine, beq_eq_false_iff_ne]
  intro hlast
  exact h ((cstr_isPrefix q).subset (List.mem_of_getLast? hlast))

theorem cstr_ne_nil_of_begins {q l : Bytes} (hq : q ≠ []) (hbegins : q <+: l)
    (hl : cstr l ≠ []) : cstr q ≠ [] := by
  obtain ⟨t, rfl⟩ := hbegins
  cases q with
  | nil => exact absurd rfl hq
  | cons c q =>
    rw [List.cons_append, cstr] at hl
    rw [cstr]
    split at hl
    · exact absurd rfl hl
    · rename_i hc
      rw [if_neg hc]
      exact List.cons_ne_nil _ _

/-- Lines that an accepted text begins with leave the check in a state, whatever follows them. -/
theorem checkLines_append {ls more : List Bytes} {chainLevel : Nat} {isEnd : Bool}
    (h : checkLines (ls ++ more) chainLevel isEnd = some true) :
    ∃ chainLevel' isEnd', ∀ rest,
      checkLines (ls ++ rest) chainLevel isEnd = checkLines rest chainLevel' isEnd' := by
  induction ls generalizing chainLevel isEnd with
  | nil => exact ⟨chainLevel, isEnd, fun _ => rfl⟩
  | cons line ls ih =>
    simp only [List.cons_append, checkLines] at h ⊢
    split at h
    · cases h
    rename_i hcstr
    simp only [if_neg hcstr]
    split at h
    swap
    · cases h
    rename_i hline
    simp only [if_pos hline]
    split at h
    · rename_i hblank
      simp only [if_pos hblank]
      exact ih h
    rename_i htext
    simp only [if_neg htext]
    split at h
    · cases h
    rename_i hend
    simp only [if_neg hend]
    split at h
    · exact ih h
    · exact ih h
    · split at h
      · cases h
      · rename_i hlevel
        simp only [if_neg hlevel]
        exact ih h
    · exact ih h
    · cases h

/-- Whole lines: if the check has met the trailer, only blank lines are missing. -/
theorem checkLines_lines {ls more : List Bytes} {chainLevel : Nat} {isEnd : Bool}
    (h : checkLines (ls ++ more) chainLevel isEnd = some true) :
    ∃ ok, checkLines ls chainLevel isEnd = some ok ∧ (ok = true → texts more = []) := by
  obtain ⟨chainLevel', isEnd', hstate⟩ := checkLines_append h
  have hls : checkLines ls chainLevel isEnd = some isEnd' := by
    have := hstate []
    rwa [List.append_nil] at this
  refine ⟨isEnd', hls, ?_⟩
  rintro rfl
  rw [hstate more] at h
  exact (checkLines_end h).2

/-- A last line without its end is refused. -/
theorem checkLines_torn {ls more : List Bytes} {q l : Bytes} {chainLevel : Nat} {isEnd : Bool}
    (h : checkLines (ls ++ l :: more) chainLevel isEnd = some true) (hq : q ≠ [])
    (hbegins : q <+: l) (hnl : newline ∉ q) :
    checkLines (ls ++ [q]) chainLevel isEnd = some false := by
  obtain ⟨chainLevel', isEnd', hstate⟩ := checkLines_append h
  rw [hstate, checkLines] at h
  split at h
  · cases h
  rename_i hcstr
  rw [hstate, checkLines, if_neg (cstr_ne_nil_of_begins hq hbegins hcstr),
    if_neg (by rw [endsLine_of_newline hnl]; exact Bool.false_ne_true)]

/-- A first part of an accepted text is refused, unless only blank lines are missing. -/
theorem checkText_prefix {text p : Bytes} {dtype : ConfigData}
    (h : checkText text = some (some dtype)) (hp : p <+: text) :
    checkText p = some none ∨ checkText p = some (some dtype) ∧
      ∃ more, (openFile text).lines = (openFile p).lines ++ more ∧ texts more = [] := by
  have hlines : (openFile p).lines <+: (openFile text).lines ∨ ∃ ls q l,
      (openFile p).lines = ls ++ [q] ∧ ls ++ [l] <+: (openFile text).lines ∧
        q ≠ [] ∧ q <+: l ∧ newline ∉ q := fgetsLines_prefix List.not_mem_nil hp
  rw [checkText] at h
  split at h
  · cases h
  rename_i header rest htext
  split at h
  swap
  · cases h
  rename_i hends
  split at h
  · cases h
  rename_i status hheader
  obtain ⟨ok, hcheck, hok⟩ := Option.map_eq_some_iff.mp h
  cases ok with
  | false => cases hok
  | true =>
  cases hok
  rw [htext] at hlines
  rcases hlines with ⟨more, hmore⟩ | ⟨ls, q, l, hq, ⟨more, hmore⟩, hne, hbegins, hnl⟩
  · cases hfirst : (openFile p).lines with
    | nil =>
      left
      rw [checkText, hfirst]
    | cons line ls =>
      rw [hfirst, List.cons_append] at hmore
      obtain ⟨rfl, rfl⟩ := List.cons.inj hmore
      obtain ⟨ok, hls, hblank⟩ := checkLines_lines hcheck
      cases ok with
      | false =>
        left
        simp only [checkText, hfirst, if_pos hends, hheader, hls]
        rfl
      | true =>
        right
        refine ⟨?_, more, ?_, hblank rfl⟩
        · simp only [checkText, hfirst, if_pos hends, hheader, hls]
          rfl
        · rw [htext]
          rfl
  · left
    cases ls with
    | nil =>
      rw [checkText, hq]
      dsimp only [List.nil_append]
      rw [if_neg (by rw [endsLine_of_newline hnl]; exact Bool.false_ne_true)]
    | cons line ls =>
      rw [List.append_assoc, List.cons_append] at hmore
      obtain ⟨rfl, rfl⟩ := List.cons.inj hmore
      have htorn := checkLines_torn hcheck hne hbegins hnl
      rw [checkText, hq]
      simp only [List.cons_append, if_pos hends, hheader, htorn]
      rfl

/-- A text that gets behind its header begins with a blank or with the header. -/
theorem checkText_begins {content : Bytes} (h : checkText content ≠ some none) :
    ∃ c s, content = c :: s ∧ c ≠ 0 ∧ (isSpace c = true ∨ c = 60) := by
  cases content with
  | nil => exact absurd rfl h
  | cons c s =>
  refine ⟨c, s, rfl, ?_⟩
  obtain ⟨l, rest, hlines⟩ := openFile_cons c s
  rw [checkText, hlines] at h
  dsimp only at h
  split at h
  swap
  · exact absurd rfl h
  split at h
  · exact absurd rfl h
  rename_i status hheader
  have hnul : c ≠ 0 := by
    rintro rfl
    cases hheader
  refine ⟨hnul, ?_⟩
  cases hspace : isSpace c with
  | true => exact Or.inl rfl
  | false =>
    right
    have hhead := headerType_head hheader
    rw [trimWhiteSpace_cons hnul hspace] at hhead
    exact Option.some.inj hhead

/-- What decryption makes of a text that begins like a plain one is refused. -/
theorem xorEncrypt_refused {c : UInt8} (hc : isSpace c = true ∨ c = 60) (s : Bytes) :
    checkText (xorEncrypt (c :: s)) = some none := by
  by_contra hne
  obtain ⟨c', s', heq, hnul, hc'⟩ := checkText_begins hne
  rw [xorEncrypt, List.mapIdx_cons] at heq
  obtain ⟨rfl, -⟩ := List.cons.inj heq
  rcases hc with hc | rfl
  · rcases isSpace_cases hc with rfl | rfl | rfl | rfl | rfl | rfl <;> revert hc' <;> decide
  · revert hc'
    decide

/-- A first part of an accepted text is not taken for an encrypted file that passes the check. -/
theorem checkConfigFile_prefix {text p : Bytes} {dtype : ConfigData}
    (h : checkText text = some (some dtype)) (hp : p <+: text) :
    checkConfigFile p true = checkText p ∨ checkConfigFile p true = some none := by
  obtain ⟨c, s, rfl, -, hc⟩ := checkText_head h
  rw [checkConfigFile, if_pos rfl, plainText]
  split
  · right
    cases p with
    | nil => rfl
    | cons b p =>
      obtain ⟨rfl, -⟩ := List.cons_prefix_cons.mp hp
      exact xorEncrypt_refused hc p
  · exact Or.inl rfl

theorem checkConfigFile_prefix_defined {text p : Bytes} {dtype : ConfigData}
    (h : checkText text = some (some dtype)) (hp : p <+: text) :
    checkConfigFile p true ≠ none := by
  intro hnone
  rcases checkConfigFile_prefix h hp with heq | heq
  · rw [heq] at hnone
    rcases checkText_prefix h hp with hnot | ⟨hall, -⟩
    · cases hnot.symm.trans hnone
    · cases hall.symm.trans hnone
  · cases heq.symm.trans hnone

/-- A text that begins with the header is not taken for an encrypted one. -/
theorem plainText_header {text : Bytes} (h : configHeader ++ [newline] <+: text) :
    plainText text = text := by
  obtain ⟨s, rfl⟩ := h
  have hline : fgetsLines 1023 [] (configHeader ++ [newline] ++ s) =
      (configHeader ++ [newline]) :: fgetsLines 1023 [] s := by
    rw [List.append_assoc]
    exact fgetsLines_line (by decide) [] (by decide) s
  have hplain : checkXorEncrypt (configHeader ++ [newline] ++ s) = false := by
    rw [checkXorEncrypt, hline, List.map_cons,
      show trimWhiteSpace (cstr (configHeader ++ [newline])) = configHeader by decide,
      List.find?_cons_of_pos (by decide)]
    decide
  rw [plainText, hplain, if_neg Bool.false_ne_true]

theorem blank_of_trim {s : Bytes} (h : trimWhiteSpace s = []) : ∀ c ∈ s, isSpace c = true := by
  intro c hc
  rw [← List.takeWhile_append_dropWhile (p := isSpace) (l := s), List.mem_append] at hc
  rcases hc with hc | hc
  · exact List.mem_takeWhile_imp hc
  · exact List.rdropWhile_eq_nil_iff.mp h c hc

/-- A line with its end at the end of the string has no zero byte. -/
theorem cstr_fileLine {l : Bytes} (hfile : newline ∉ l.dropLast) (hends : endsLine l = true) :
    cstr l = l := by
  rw [endsLine, beq_iff_eq] at hends
  obtain ⟨t, ht⟩ := cstr_isPrefix l
  cases t with
  | nil =>
    rw [List.append_nil] at ht
    exact ht
  | cons b t =>
    exfalso
    apply hfile
    rw [← ht, List.dropLast_append_of_ne_nil (List.cons_ne_nil _ _)]
    exact List.mem_append_left _ (List.mem_of_getLast? hends)

theorem checkText_ends {text : Bytes} {dtype : ConfigData}
    (h : checkText text = some (some dtype)) : ∀ l ∈ (openFile text).lines, endsLine l = true := by
  obtain ⟨header, ts, hholds, -⟩ := checkText_listing h
  exact fun l hl => (hholds.ended l hl).1

/-- An accepted text with a visible character before its last byte has no blank last line. -/
theorem last_line_text {text t : Bytes} {c : UInt8} {dtype : ConfigData} {ls : List Bytes}
    {l : Bytes} (h : checkText text = some (some dtype)) (htext : text = t ++ [c, newline])
    (hc : isSpace c = false) (hlines : (openFile text).lines = ls ++ [l]) : texts [l] ≠ [] := by
  have hmem : ∀ m ∈ ls ++ [l], endsLine m = true ∧ newline ∉ m.dropLast := by
    intro m hm
    rw [← hlines] at hm
    exact ⟨checkText_ends h m hm, (openFile_fileLine text m hm).1⟩
  have hcstr : ∀ m ∈ ls ++ [l], cstr m = m ∧ m.getLast? = some newline := by
    intro m hm
    obtain ⟨hends, hfile⟩ := hmem m hm
    have hself := cstr_fileLine hfile hends
    rw [endsLine, beq_iff_eq, hself] at hends
    exact ⟨hself, hends⟩
  obtain ⟨hself, hlast⟩ := hcstr l (List.mem_append_right _ List.mem_cons_self)
  obtain ⟨l', hl'⟩ := List.getLast?_eq_some_iff.mp hlast
  have hflat : ls.flatten ++ l = t ++ [c, newline] := by
    have hall := fgetsLines_flatten (maxMibValStrLen - 1) [] text
    rw [List.nil_append, htext] at hall
    rw [openFile] at hlines
    dsimp only at hlines
    rw [htext] at hlines
    rw [hlines, List.flatten_append] at hall
    simpa using hall
  have hbefore : ls.flatten ++ l' = t ++ [c] := by
    rw [hl', ← List.append_assoc, show t ++ [c, newline] = t ++ [c] ++ [newline] by simp] at hflat
    exact List.append_cancel_right hflat
  have hmeml : c ∈ l' := by
    by_contra hnot
    have hnil : l' = [] := by
      by_contra hne
      have hget := congrArg List.getLast? hbefore
      rw [List.getLast?_append_of_ne_nil _ hne, List.getLast?_concat] at hget
      exact hnot (List.mem_of_getLast? hget)
    rw [hnil, List.append_nil] at hbefore
    have hnewline : (ls.flatten).getLast? = some newline := by
      have hne : ls ≠ [] := by
        rintro rfl
        exact List.append_ne_nil_of_right_ne_nil t (List.cons_ne_nil c []) hbefore.symm
      obtain ⟨pre, m, rfl⟩ := List.eq_nil_or_concat ls |>.resolve_left hne
      have hm := (hcstr m (by simp)).2
      rw [List.concat_eq_append, List.flatten_append, List.flatten_singleton,
        List.getLast?_append, hm]
      rfl
    rw [hbefore, List.getLast?_concat] at hnewline
    cases hnewline
    cases hc
  intro hblank
  rw [texts_cons, hself] at hblank
  split at hblank
  · rename_i htrim
    have hspace := blank_of_trim htrim c (by rw [hl']; exact List.mem_append_left _ hmeml)
    rw [hc] at hspace
    cases hspace
  · cases hblank

/-- What is left of a saved file without its end is refused. -/
theorem torn_refused {text p t : Bytes} {c : UInt8} {dtype : ConfigData}
    (h : checkText text = some (some dtype)) (htext : text = t ++ [c, newline])
    (hc : isSpace c = false) (hp : p <+: text) (hne : p ≠ text) :
    checkConfigFile p true = some none := by
  have hcheck : checkText p = some none := by
    rcases checkText_prefix h hp with hnot | ⟨-, more, hmore, hblank⟩
    · exact hnot
    exfalso
    rcases List.eq_nil_or_concat more with rfl | ⟨pre, l, rfl⟩
    · apply hne
      have hflat := congrArg List.flatten hmore
      simpa [openFile, fgetsLines_flatten] using hflat.symm
    · rw [List.concat_eq_append, ← List.append_assoc] at hmore
      apply last_line_text h htext hc hmore
      rw [List.concat_eq_append, XmlGrammar.texts, List.map_append, List.filter_append] at hblank
      exact (List.append_eq_nil_iff.mp hblank).2
  rcases checkConfigFile_prefix h hp with heq | heq
  · rw [heq, hcheck]
  · exact heq

end XmlTorn
