import BoaGateway.DocumentRoot

/-!
# Cleaning a path name in its buffer

`clean_pathname` reads and writes one buffer through two pointers. The one that writes never
overtakes the one that reads, so what is read has not been changed yet, and one pass reaches a
text that a second pass leaves alone.
-/

namespace PathCleaning

open ByteBlocks Texts TranslateUri DocumentRoot

def dot : UInt8 := 46

/-- One round of the inner loop: how far `pathname` moves, and 0 for the `break`. -/
def roundAt (mem : Bytes) (pathname : Nat) : Option Nat :=
  (mem[pathname]?).bind fun c =>
    if c = slash then some 1
    else if c = dot then
      (mem[pathname + 1]?).bind fun d =>
        if d = slash then some 2
        else if d = dot then
          (mem[pathname + 2]?).map fun e => if e = slash then 3 else 0
        else some 0
    else some 0

theorem roundAt_inside {mem : Bytes} {pathname k : Nat} (h : roundAt mem pathname = some k) :
    pathname < mem.length := by
  obtain ⟨c, hc, -⟩ := Option.bind_eq_some_iff.mp h
  exact (List.getElem?_eq_some_iff.mp hc).1

/-- The inner loop: where `pathname` points to when it ends. -/
def skipAt (mem : Bytes) (pathname : Nat) : Option Nat :=
  match _h : roundAt mem pathname with
  | none => none
  | some 0 => some pathname
  | some (k + 1) => skipAt mem (pathname + (k + 1))
termination_by mem.length - pathname
decreasing_by
  have hin := roundAt_inside _h
  omega

theorem skipAt_le {mem : Bytes} {pathname p : Nat} (h : skipAt mem pathname = some p) :
    pathname ≤ p := by
  fun_induction skipAt mem pathname with
  | case1 pathname hround => cases h
  | case2 pathname hround =>
    cases h
    exact le_rfl
  | case3 pathname k hround ih => exact le_trans (Nat.le_add_right _ _) (ih h)

/-- `*cleanpath = c`. -/
def store (mem : Bytes) (cleanpath : Nat) (c : UInt8) : Option Bytes :=
  if cleanpath < mem.length then some (mem.set cleanpath c) else none

theorem store_length {mem mem' : Bytes} {cleanpath : Nat} {c : UInt8}
    (h : store mem cleanpath c = some mem') : mem'.length = mem.length := by
  unfold store at h
  split at h
  · cases h
    exact List.length_set
  · cases h

/-- The outer loop, with the two pointers. -/
def cleanFrom (mem : Bytes) (cleanpath pathname : Nat) (cgiarg : Bool) : Option Bytes :=
  match _hc : mem[pathname]? with
  | none => none
  | some c =>
    if c = 0 then store mem cleanpath 0
    else if c = slash ∧ cgiarg = false then
      match _hskip : skipAt mem (pathname + 1) with
      | none => none
      | some p =>
        match _hstore : store mem cleanpath slash with
        | none => none
        | some mem' => cleanFrom mem' (cleanpath + 1) p cgiarg
    else
      match _hstore : store mem cleanpath c with
      | none => none
      | some mem' =>
        cleanFrom mem' (cleanpath + 1) (pathname + 1) (cgiarg || c == questionMark)
termination_by mem.length - pathname
decreasing_by
  · have hin := (List.getElem?_eq_some_iff.mp _hc).1
    have hle := skipAt_le _hskip
    rw [store_length _hstore]
    omega
  · have hin := (List.getElem?_eq_some_iff.mp _hc).1
    rw [store_length _hstore]
    omega

/-- `clean_pathname`, on the object that holds the text. -/
def cleanBuffer (mem : Bytes) : Option Bytes := cleanFrom mem 0 0 false

/-- The memory has been written up to the first pointer; behind it lies what has been read, and
then the rest of the text. -/
theorem load_text (w s rest : Bytes) (k : Nat) :
    (w ++ (s ++ 0 :: rest))[w.length + k]? = (s ++ 0 :: rest)[k]? := by
  rw [List.getElem?_append_right (Nat.le_add_right _ _), Nat.add_sub_cancel_left]

theorem roundAt_text (w s rest : Bytes) :
    ∃ k, roundAt (w ++ (s ++ 0 :: rest)) w.length = some k ∧
      (k = 0 ∧ skipRound s = none ∨ 0 < k ∧ k ≤ s.length ∧ skipRound s = some (s.drop k)) := by
  have hload := load_text w s rest
  have h0 : (w ++ (s ++ 0 :: rest))[w.length]? = (s ++ 0 :: rest)[0]? := hload 0
  have hdotSlash : ascii "./" = [dot, slash] := rfl
  have hdotsSlash : ascii "../" = [dot, dot, slash] := rfl
  have hdot : dot ≠ slash := by decide
  have hzero : (0 : UInt8) ≠ slash ∧ (0 : UInt8) ≠ dot := by decide
  simp only [roundAt, h0, hload, skipRound, hdotSlash, hdotsSlash]
  rcases s with _ | ⟨c, s⟩
  · exact ⟨0, by simp [hzero.1, hzero.2], Or.inl ⟨rfl, by simp⟩⟩
  · by_cases hc : c = slash
    · exact ⟨1, by simp [hc], Or.inr ⟨by decide, by simp, by simp [hc]⟩⟩
    · by_cases hcd : c = dot
      · rcases s with _ | ⟨d, s⟩
        · exact ⟨0, by simp [hcd, hdot, hzero.1, hzero.2],
            Or.inl ⟨rfl, by simp [hcd, hdot.symm]⟩⟩
        · by_cases hd : d = slash
          · exact ⟨2, by simp [hcd, hd, hdot],
              Or.inr ⟨by decide, by simp, by simp [hcd, hd, hdot.symm]⟩⟩
          · by_cases hdd : d = dot
            · rcases s with _ | ⟨e, s⟩
              · exact ⟨0, by simp [hcd, hdd, hdot, hzero.1],
                  Or.inl ⟨rfl, by simp [hcd, hdd, hdot.symm]⟩⟩
              · by_cases he : e = slash
                · exact ⟨3, by simp [hcd, hdd, he, hdot],
                    Or.inr ⟨by decide, by simp, by simp [hcd, hdd, he, hdot.symm]⟩⟩
                · exact ⟨0, by simp [hcd, hdd, he, hdot],
                    Or.inl ⟨rfl, by simp [hcd, hdd, Ne.symm he, hdot.symm]⟩⟩
            · exact ⟨0, by simp [hcd, hd, hdd, hdot],
                Or.inl ⟨rfl, by simp [hcd, Ne.symm hd, Ne.symm hdd, hdot.symm]⟩⟩
      · exact ⟨0, by simp [hc, hcd],
          Or.inl ⟨rfl, by simp [Ne.symm hc, Ne.symm hcd]⟩⟩

/-- The inner loop goes over what `clean_pathname` drops. -/
theorem skipAt_text (w s rest : Bytes) :
    ∃ dropped, s = dropped ++ skipDots s ∧
      skipAt (w ++ (s ++ 0 :: rest)) w.length = some (w ++ dropped).length := by
  fun_induction skipDots s generalizing w with
  | case1 s t hround ih =>
    obtain ⟨k, hk, ⟨-, hnone⟩ | ⟨hpos, hle, hsome⟩⟩ := roundAt_text w s rest
    · cases hround.symm.trans hnone
    · obtain rfl : t = s.drop k := Option.some.inj (hround.symm.trans hsome)
      obtain ⟨dropped, hdropped, hskip⟩ := ih (w ++ s.take k)
      have hmem : w ++ s.take k ++ (s.drop k ++ 0 :: rest) = w ++ (s ++ 0 :: rest) := by
        rw [List.append_assoc, ← List.append_assoc (s.take k), List.take_append_drop]
      have hlen : (w ++ s.take k).length = w.length + k := by
        rw [List.length_append, List.length_take_of_le hle]
      refine ⟨s.take k ++ dropped, ?_, ?_⟩
      · rw [List.append_assoc, ← hdropped, List.take_append_drop]
      · obtain ⟨k, rfl⟩ := Nat.exists_eq_add_one_of_ne_zero hpos.ne'
        rw [hmem, hlen] at hskip
        rw [skipAt]
        split
        · rename_i hnone
          cases hnone.symm.trans hk
        · rename_i hzero
          cases hzero.symm.trans hk
        · rename_i j hj
          cases hj.symm.trans hk
          rw [hskip, List.append_assoc]
  | case2 s hround =>
    obtain ⟨k, hk, ⟨rfl, -⟩ | ⟨-, -, hsome⟩⟩ := roundAt_text w s rest
    · refine ⟨[], rfl, ?_⟩
      rw [skipAt, List.append_nil]
      split
      · rename_i hnone
        cases hnone.symm.trans hk
      · rfl
      · rename_i j hj
        cases hj.symm.trans hk
    · cases hround.symm.trans hsome

theorem store_text (w r : Bytes) (x c : UInt8) :
    store (w ++ x :: r) w.length c = some (w ++ c :: r) := by
  have hin : w.length < (w ++ x :: r).length := by simp
  rw [store, if_pos hin, List.set_append_right _ _ le_rfl, Nat.sub_self, List.set_cons_zero]

theorem cleanFrom_end {mem : Bytes} {cleanpath pathname : Nat} {cgiarg : Bool}
    (hc : mem[pathname]? = some 0) :
    cleanFrom mem cleanpath pathname cgiarg = store mem cleanpath 0 := by
  rw [cleanFrom]
  split
  · rename_i hnone
    cases hnone.symm.trans hc
  · rename_i c hsome
    cases hsome.symm.trans hc
    exact if_pos rfl

theorem cleanFrom_slash {mem mem' : Bytes} {cleanpath pathname p : Nat} {cgiarg : Bool}
    (hc : mem[pathname]? = some slash) (hcgi : cgiarg = false)
    (hskip : skipAt mem (pathname + 1) = some p) (hstore : store mem cleanpath slash = some mem') :
    cleanFrom mem cleanpath pathname cgiarg = cleanFrom mem' (cleanpath + 1) p cgiarg := by
  rw [cleanFrom]
  split
  · rename_i hnone
    cases hnone.symm.trans hc
  · rename_i c hsome
    cases hsome.symm.trans hc
    rw [if_neg (by decide), if_pos ⟨rfl, hcgi⟩]
    split
    · rename_i hnone
      cases hnone.symm.trans hskip
    · rename_i q hq
      cases hq.symm.trans hskip
      split
      · rename_i hnone
        cases hnone.symm.trans hstore
      · rename_i m hm
        cases hm.symm.trans hstore
        rfl

theorem cleanFrom_byte {mem mem' : Bytes} {cleanpath pathname : Nat} {cgiarg : Bool} {c : UInt8}
    (hc : mem[pathname]? = some c) (hnul : c ≠ 0) (hkeep : ¬ (c = slash ∧ cgiarg = false))
    (hstore : store mem cleanpath c = some mem') :
    cleanFrom mem cleanpath pathname cgiarg =
      cleanFrom mem' (cleanpath + 1) (pathname + 1) (cgiarg || c == questionMark) := by
  rw [cleanFrom]
  split
  · rename_i hnone
    cases hnone.symm.trans hc
  · rename_i c' hsome
    cases hsome.symm.trans hc
    rw [if_neg hnul, if_neg hkeep]
    split
    · rename_i hnone
      cases hnone.symm.trans hstore
    · rename_i m hm
      cases hm.symm.trans hstore
      rfl

/-- What has been read but for one byte takes that byte in and gives one up. -/
theorem gap_shift (gap : Bytes) (c : UInt8) :
    ∃ x gap', gap ++ [c] = x :: gap' ∧ gap'.length = gap.length := by
  obtain ⟨x, gap', hgap⟩ := List.exists_cons_of_ne_nil (List.concat_ne_nil c gap)
  have hlen := congrArg List.length hgap
  simp only [List.length_append, List.length_cons, List.length_nil] at hlen
  exact ⟨x, gap', hgap, by omega⟩

theorem load_gap (w gap : Bytes) (c : UInt8) (t : Bytes) :
    (w ++ (gap ++ c :: t))[(w ++ gap).length]? = some c := by
  rw [← List.append_assoc, List.getElem?_append_right le_rfl, Nat.sub_self]
  rfl

theorem memory_gap {w gap gap' : Bytes} {c x : UInt8} (h : gap ++ [c] = x :: gap') (t : Bytes) :
    w ++ (gap ++ c :: t) = w ++ x :: (gap' ++ t) := by
  rw [← List.cons_append, ← h, List.append_assoc, List.singleton_append]

theorem length_gap {w gap gap' : Bytes} {c x : UInt8} (h : gap ++ [c] = x :: gap') (d : UInt8) :
    (w ++ [d] ++ gap').length = (w ++ gap).length + 1 := by
  have hlen := congrArg List.length h
  simp only [List.length_append, List.length_cons, List.length_nil] at hlen ⊢
  omega

/-- The outer loop writes the cleaned text behind what it has written, and leaves alone what lies
behind the end of the text. -/
theorem cleanFrom_text (cgiarg : Bool) (w gap : Bytes) {s : Bytes} (hs : (0 : UInt8) ∉ s) :
    ∃ left, (cleanLoop cgiarg s).length + left.length = gap.length + s.length ∧
      ∀ rest, cleanFrom (w ++ (gap ++ (s ++ 0 :: rest))) w.length (w ++ gap).length cgiarg =
        some (w ++ (cleanLoop cgiarg s ++ 0 :: (left ++ rest))) := by
  fun_induction cleanLoop cgiarg s generalizing w gap with
  | case1 cgiarg =>
    obtain ⟨x, gap', hgap, hlen⟩ := gap_shift gap 0
    refine ⟨gap', by simp [hlen], fun rest => ?_⟩
    rw [List.nil_append, cleanFrom_end (load_gap w gap 0 rest), memory_gap hgap, store_text]
    rfl
  | case2 cgiarg c s hc ih =>
    obtain ⟨rfl, hcgi⟩ := hc
    obtain ⟨x, gap', hgap, hlen⟩ := gap_shift gap slash
    obtain ⟨dropped, hdropped, -⟩ := skipAt_text [] s []
    have hnul : (0 : UInt8) ∉ skipDots s :=
      fun h => hs (List.mem_cons_of_mem _ (skipDots_subset s h))
    have hskip (w rest : Bytes) :
        skipAt (w ++ (s ++ 0 :: rest)) w.length = some (w ++ dropped).length := by
      obtain ⟨dropped', hdropped', hskip⟩ := skipAt_text w s rest
      rwa [List.append_cancel_right (hdropped.symm.trans hdropped')]
    obtain ⟨left, hleft, hrun⟩ := ih (w ++ [slash]) (gap' ++ dropped) hnul
    refine ⟨left, ?_, fun rest => ?_⟩
    · have hsplit := congrArg List.length hdropped
      simp only [List.length_append, List.length_cons] at hleft hsplit ⊢
      omega
    · have hfrom : skipAt (w ++ (gap ++ slash :: (s ++ 0 :: rest))) ((w ++ gap).length + 1) =
          some (w ++ [slash] ++ (gap' ++ dropped)).length := by
        rw [memory_gap hgap, ← length_gap hgap x, ← List.cons_append, ← List.append_assoc w,
          show w ++ [x] ++ gap' = w ++ x :: gap' by simp, hskip]
        simp only [List.length_append, List.length_cons, List.length_nil]
        congr 1
        omega
      have hrun := hrun rest
      rw [List.append_assoc gap', ← List.append_assoc dropped, ← hdropped, List.length_append,
        List.length_singleton, List.append_assoc, List.singleton_append] at hrun
      rw [List.cons_append, cleanFrom_slash (load_gap w gap slash _) hcgi hfrom
        (by rw [memory_gap hgap, store_text]), hrun, List.append_assoc, List.singleton_append,
        List.cons_append]
  | case3 cgiarg c s hc ih =>
    obtain ⟨hnul, hs⟩ := not_or.mp (List.mem_cons.not.mp hs)
    obtain ⟨x, gap', hgap, hlen⟩ := gap_shift gap c
    obtain ⟨left, hleft, hrun⟩ := ih (w ++ [c]) gap' hs
    refine ⟨left, ?_, fun rest => ?_⟩
    · simp only [List.length_cons]
      omega
    · have hrun := hrun rest
      rw [length_gap hgap, List.length_append, List.length_singleton, List.append_assoc,
        List.singleton_append] at hrun
      rw [List.cons_append, cleanFrom_byte (load_gap w gap c _) (Ne.symm hnul) hc
        (by rw [memory_gap hgap, store_text]), hrun, List.append_assoc, List.singleton_append,
        List.cons_append]

/-- None of the three patterns that are cleaned away. -/
def Clean (s : Bytes) : Prop :=
  ¬ ascii "//" <:+: s ∧ ¬ ascii "/./" <:+: s ∧ ¬ ascii "/../" <:+: s

/-- The text from the first question mark on. -/
def fromQuestion (s : Bytes) : Bytes := s.dropWhile fun c => c != questionMark

theorem skipRound_none_iff {s : Bytes} :
    skipRound s = none ↔ ¬ [slash] <+: s ∧ ¬ ascii "./" <+: s ∧ ¬ ascii "../" <+: s := by
  simp only [← List.isPrefixOf_iff_prefix, skipRound]
  split
  · simp [*]
  split
  · simp [*]
  split
  · simp [*]
  · simp [*]

theorem clean_nil : Clean [] := by
  simp only [Clean, List.infix_nil]
  decide

theorem clean_cons_iff {c : UInt8} {s : Bytes} :
    Clean (c :: s) ↔ (c = slash → skipRound s = none) ∧ Clean s := by
  have hone (t : Bytes) : slash :: t <:+: c :: s ↔ c = slash ∧ t <+: s ∨ slash :: t <:+: s := by
    rw [List.infix_cons_iff, List.cons_prefix_cons, eq_comm]
  have hpatterns : ascii "//" = slash :: [slash] ∧ ascii "/./" = slash :: ascii "./" ∧
      ascii "/../" = slash :: ascii "../" := ⟨rfl, rfl, rfl⟩
  simp only [Clean, hpatterns.1, hpatterns.2.1, hpatterns.2.2, hone, skipRound_none_iff]
  tauto

theorem skipDots_round (s : Bytes) : skipRound (skipDots s) = none := by
  fun_induction skipDots s with
  | case1 s t hround ih => exact ih
  | case2 s hround => exact hround

theorem skipDots_of_round {s : Bytes} (h : skipRound s = none) : skipDots s = s := by
  rw [skipDots]
  split
  · rename_i hsome
    cases hsome.symm.trans h
  · rfl

/-- Cleaning keeps the first three bytes of a text that the inner loop leaves alone, as far as
these can make up a pattern. -/
theorem skipRound_cleanLoop {s : Bytes} (h : skipRound s = none) :
    skipRound (cleanLoop false s) = none := by
  have hdotSlash : ascii "./" = [dot, slash] := rfl
  have hdotsSlash : ascii "../" = [dot, dot, slash] := rfl
  have hbyte {c : UInt8} (hc : c ≠ slash) (t : Bytes) :
      cleanLoop false (c :: t) = c :: cleanLoop (false || c == questionMark) t := by
    rw [cleanLoop, if_neg fun hslash => hc hslash.1]
  have hdot (t : Bytes) : cleanLoop false (dot :: t) = dot :: cleanLoop false t :=
    hbyte (by decide) t
  rw [skipRound_none_iff, hdotSlash, hdotsSlash] at h ⊢
  obtain ⟨hslash, hone, htwo⟩ := h
  rcases s with _ | ⟨c, s⟩
  · simp [cleanLoop]
  have hc : c ≠ slash := by
    rintro rfl
    exact hslash ⟨s, rfl⟩
  by_cases hcd : c = dot
  · subst hcd
    rw [hdot]
    rcases s with _ | ⟨d, s⟩
    · simp [cleanLoop, hc.symm]
    have hd : d ≠ slash := by
      rintro rfl
      exact hone ⟨s, rfl⟩
    by_cases hdd : d = dot
    · subst hdd
      rw [hdot]
      rcases s with _ | ⟨e, s⟩
      · simp [cleanLoop, hc.symm]
      have he : e ≠ slash := by
        rintro rfl
        exact htwo ⟨s, rfl⟩
      simp [hbyte he, hc.symm, he.symm]
    · simp [hbyte hd, hc.symm, hd.symm, Ne.symm hdd]
  · simp [hbyte hc, hc.symm, Ne.symm hcd]

theorem cleanLoop_clean {s : Bytes} (hs : questionMark ∉ s) : Clean (cleanLoop false s) := by
  generalize hcgi : false = cgiarg
  fun_induction cleanLoop cgiarg s with
  | case1 cgiarg => exact clean_nil
  | case2 cgiarg c s hc ih =>
    subst hcgi
    have hskip : questionMark ∉ skipDots s :=
      fun h => hs (List.mem_cons_of_mem _ (skipDots_subset s h))
    exact clean_cons_iff.mpr ⟨fun _ => skipRound_cleanLoop (skipDots_round s), ih hskip rfl⟩
  | case3 cgiarg c s hc ih =>
    subst hcgi
    obtain ⟨hquestion, hs⟩ := not_or.mp (List.mem_cons.not.mp hs)
    have hcgi : (false || c == questionMark) = false := by
      simpa using Ne.symm hquestion
    exact clean_cons_iff.mpr ⟨fun hslash => absurd ⟨hslash, rfl⟩ hc, ih hs hcgi.symm⟩

/-- A clean text stays as it is. -/
theorem cleanLoop_of_clean {s : Bytes} (h : Clean s) : cleanLoop false s = s := by
  generalize hcgi : false = cgiarg
  fun_induction cleanLoop cgiarg s with
  | case1 cgiarg => rfl
  | case2 cgiarg c s hc ih =>
    obtain ⟨hround, hclean⟩ := clean_cons_iff.mp h
    have hskip := skipDots_of_round (hround hc.1)
    rw [hskip] at ih ⊢
    rw [ih hclean hcgi, hc.1]
  | case3 cgiarg c s hc ih =>
    by_cases hquestion : c = questionMark
    · rw [hquestion, beq_self_eq_true, Bool.or_true, cleanLoop_cgiarg]
    · rw [ih (clean_cons_iff.mp h).2 (by simpa [← hcgi] using hquestion)]

theorem mem_pathPart {s : Bytes} : questionMark ∉ pathPart s := by
  intro h
  have hc := List.mem_takeWhile_imp h
  simp at hc

theorem pathPart_fromQuestion (s : Bytes) : pathPart s ++ fromQuestion s = s :=
  List.takeWhile_append_dropWhile

/-- Only what stands in front of the first question mark is cleaned. -/
theorem cleanPathname_parts (s : Bytes) :
    cleanPathname s = cleanLoop false (pathPart s) ++ fromQuestion s := by
  have hparts := pathPart_fromQuestion s
  cases hrest : fromQuestion s with
  | nil =>
    rw [hrest, List.append_nil] at hparts
    rw [hparts, List.append_nil]
    rfl
  | cons c r =>
    obtain rfl : c = questionMark := by
      have hhead := List.head?_dropWhile_not (fun c => c != questionMark) s
      rw [← fromQuestion, hrest] at hhead
      simpa using hhead
    have hquery : cleanLoop false (pathPart s ++ questionMark :: r) =
        cleanLoop false (pathPart s) ++ questionMark :: r :=
      cleanLoop_query mem_pathPart r
    rw [← hrest, hparts] at hquery
    rw [← hrest]
    exact hquery

/-- The parts of a cleaned text. -/
theorem cleanPathname_spec (s : Bytes) :
    pathPart (cleanPathname s) = cleanLoop false (pathPart s) ∧
      fromQuestion (cleanPathname s) = fromQuestion s := by
  have hpath : pathPart (cleanPathname s) = cleanLoop false (pathPart s) :=
    pathPart_cleanPathname s
  constructor
  · exact hpath
  · have hparts : cleanLoop false (pathPart s) ++ fromQuestion (cleanPathname s) =
        cleanLoop false (pathPart s) ++ fromQuestion s := by
      rw [← cleanPathname_parts, ← hpath, pathPart_fromQuestion]
    exact List.append_cancel_left hparts

theorem cleanPathname_of_clean {s : Bytes} (h : Clean (pathPart s)) : cleanPathname s = s := by
  rw [cleanPathname_parts, cleanLoop_of_clean h, pathPart_fromQuestion]

/-- The buffer holds the cleaned text, and what lies behind the terminator is left alone. -/
theorem cleanBuffer_text {path : Bytes} (hpath : (0 : UInt8) ∉ path) :
    ∃ left, (cleanPathname path).length + left.length = path.length ∧
      ∀ rest, cleanBuffer (path ++ 0 :: rest) = some (cleanPathname path ++ 0 :: (left ++ rest)) := by
  obtain ⟨left, hleft, hrun⟩ := cleanFrom_text false [] [] hpath
  exact ⟨left, hleft.trans (Nat.zero_add _), hrun⟩

/-- A path name is cleaned in one pass and within its own bytes: with nothing behind the
terminator the loops end without a step outside, and what lies behind it stays as it is. -/
theorem path_cleaned {path : Bytes} (hpath : (0 : UInt8) ∉ path) :
    ∃ mem, cleanBuffer (path ++ [0]) = some mem ∧ mem.length = path.length + 1 ∧
      (∀ rest, cleanBuffer (path ++ 0 :: rest) = some (mem ++ rest)) ∧
      fromQuestion (cstr mem) = fromQuestion path ∧ Clean (pathPart (cstr mem)) ∧
      cleanBuffer mem = some mem ∧
      (Clean (pathPart path) → mem = path ++ [0]) := by
  obtain ⟨left, hlen, hrun⟩ := cleanBuffer_text hpath
  have hsub : (0 : UInt8) ∉ cleanPathname path := fun h => hpath (cleanLoop_subset _ _ h)
  have htext : cstr (cleanPathname path ++ 0 :: left) = cleanPathname path :=
    cstr_nul_free hsub left
  obtain ⟨hpathPart, hquestion⟩ := cleanPathname_spec path
  have hclean : Clean (pathPart (cleanPathname path)) := by
    rw [hpathPart]
    exact cleanLoop_clean mem_pathPart
  -- nothing is left over when the text does not get shorter
  have hsame {s : Bytes} (hs : (0 : UInt8) ∉ s) (hc : Clean (pathPart s)) (rest : Bytes) :
      cleanBuffer (s ++ 0 :: rest) = some (s ++ 0 :: rest) := by
    obtain ⟨left, hlen, hrun⟩ := cleanBuffer_text hs
    rw [cleanPathname_of_clean hc] at hlen hrun
    obtain rfl : left = [] := List.length_eq_zero_iff.mp (by omega)
    exact hrun rest
  refine ⟨cleanPathname path ++ 0 :: left, ?_, ?_, ?_, ?_, ?_, ?_, ?_⟩
  · simpa using hrun []
  · simp only [List.length_append, List.length_cons]
    omega
  · intro rest
    rw [hrun, List.append_assoc, List.cons_append]
  · rw [htext, hquestion]
  · rw [htext]
    exact hclean
  · exact hsame hsub hclean left
  · intro hc
    have hfix := hsame hpath hc []
    rw [hrun, List.append_nil] at hfix
    exact Option.some.inj hfix

theorem path_cleaned_dots :
    (0 : UInt8) ∉ ascii "/a/..//./b?c//d" ∧
      ∃ mem, cleanBuffer (ascii "/a/..//./b?c//d" ++ [0]) = some mem ∧
        fromQuestion (cstr mem) = ascii "?c//d" ∧ Clean (pathPart (cstr mem)) := by
  have hnul : (0 : UInt8) ∉ ascii "/a/..//./b?c//d" := by decide
  obtain ⟨mem, hmem, -, -, hquestion, hclean, -⟩ := path_cleaned hnul
  exact ⟨hnul, mem, hmem, hquestion.trans (by decide), hclean⟩

end PathCleaning
