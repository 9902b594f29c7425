import BoaGateway.XmlLines

/-!
# What the check of a settings file accepts

An accepted file gives its texts line by line up to a trailer, with blank lines only behind it.
The grammar of values and closed blocks stands beside the check, which counts open blocks but
lets the trailer come while some are open.
-/

namespace XmlGrammar

open ByteBlocks Texts TextFiles MibValue XmlLines

theorem strchr_append {w : Bytes} {c : UInt8} (hw : c ∉ w) (s : Bytes) :
    strchr (w ++ c :: s) c = some (w, s) := by
  have hall : ∀ b ∈ w, (b != c) = true := by
    intro b hb
    rw [bne_iff_ne]
    rintro rfl
    exact hw hb
  rw [strchr, if_pos (List.mem_append_right w List.mem_cons_self),
    List.takeWhile_append_of_pos hall, List.dropWhile_append_of_pos hall, List.takeWhile_cons,
    List.dropWhile_cons, bne_self_eq_false]
  simp

theorem strchr_isSome {s : Bytes} {c : UInt8} (h : c ∈ s) : ∃ w t, strchr s c = some (w, t) := by
  rw [strchr, if_pos h]
  exact ⟨_, _, rfl⟩

theorem strtok_isSome {s : Bytes} {b c : UInt8} (hb : b ∈ s) (hne : b ≠ c) :
    ∃ w t, strtok s c = some (w, t) := by
  rw [strtok, if_neg]
  · exact ⟨_, _, rfl⟩
  · intro h
    have := List.dropWhile_eq_nil_iff.mp h b hb
    exact hne (eq_of_beq this)

theorem strtok_append {w : Bytes} {c : UInt8} (hne : w ≠ []) (hw : c ∉ w) (s : Bytes) :
    strtok (w ++ c :: s) c = some (w, s) := by
  obtain ⟨b, w, rfl⟩ := List.exists_cons_of_ne_nil hne
  have hb : (b == c) = false := by
    rw [beq_eq_false_iff_ne]
    rintro rfl
    exact hw List.mem_cons_self
  have hstart : (b :: w ++ c :: s).dropWhile (· == c) = b :: w ++ c :: s := by
    rw [List.cons_append, List.dropWhile_cons, hb]
    rfl
  have hfound := strchr_append hw s
  rw [strchr, if_pos (List.mem_append_right _ List.mem_cons_self)] at hfound
  rw [strtok, hstart]
  exact hfound

theorem scanText_eq_some {t s s' : Bytes} (h : scanText t s = some s') : s = t ++ s' := by
  rw [scanText] at h
  split at h
  · rename_i hprefix
    cases h
    exact (List.prefix_iff_eq_append.mp hprefix).symm
  · cases h

theorem mem_of_mem_skipSpace {s : Bytes} {c : UInt8} (h : c ∈ skipSpace s) : c ∈ s :=
  (List.dropWhile_sublist _).subset h

/-- A line that the check takes for a value is one for the loader, with a name and a value. -/
theorem lineKind_value {t : Bytes} (h : lineKind t = .value) :
    isValueLine t = true ∧ isChainEnd t = false ∧ isChainLine t = false ∧ isTrailer t = false ∧
      ∃ name tail value, quotedName t = some (name, tail) ∧ quotedValue tail = some value := by
  unfold lineKind at h
  split at h
  · rename_i s hscan
    split at h
    swap
    · cases h
    rename_i hcheck
    have ht := scanText_eq_some hscan
    subst ht
    refine ⟨rfl, rfl, rfl, rfl, ?_⟩
    have hname : quotedName (ascii "<Value Name=\"" ++ s) = strchr s quote := by
      have := strchr_append (w := ascii "<Value Name=") (c := quote) (by decide) s
      rw [quotedName, show ascii "<Value Name=\"" ++ s = ascii "<Value Name=" ++ quote :: s from rfl,
        this]
    rw [hname]
    unfold checkValue at hcheck
    split at hcheck
    · cases hcheck
    rename_i name tail hfound
    split at hcheck
    · cases hcheck
    rename_i rest hvalue
    have hmem : quote ∈ tail := by
      apply mem_of_mem_skipSpace
      rw [scanText_eq_some hvalue]
      exact List.mem_append_left _ (by decide)
    obtain ⟨w, pvalue, hstart⟩ := strchr_isSome hmem
    refine ⟨name, tail, ?_⟩
    rw [quotedValue, hstart]
    dsimp only
    split
    · exact ⟨_, hfound, rfl⟩
    · exact ⟨_, hfound, rfl⟩
  · split at h
    · split at h <;> cases h
    · split at h
      · cases h
      · split at h <;> cases h

/-- A line that the check takes for the start of a block is one for the loader, with a name. -/
theorem lineKind_chain {t : Bytes} (h : lineKind t = .chain) :
    isChainLine t = true ∧ isChainEnd t = false ∧ isValueLine t = false ∧ isTrailer t = false ∧
      ∃ name tail, quotedToken t = some (name, tail) := by
  unfold lineKind at h
  split at h
  · split at h <;> cases h
  split at h
  · rename_i s hscan
    split at h
    swap
    · cases h
    rename_i hcheck
    have ht := scanText_eq_some hscan
    subst ht
    refine ⟨rfl, rfl, rfl, rfl, ?_⟩
    have hfirst : strtok (ascii "<chain chainName=\"" ++ s) quote =
        some (ascii "<chain chainName=", s) :=
      strtok_append (w := ascii "<chain chainName=") (by decide) (by decide) s
    rw [quotedToken, hfirst]
    unfold checkChain at hcheck
    split at hcheck
    · cases hcheck
    rename_i name tail hfound
    split at hcheck
    · cases hcheck
    rename_i rest hclose
    have hmem : (62 : UInt8) ∈ tail := by
      apply mem_of_mem_skipSpace
      rw [scanText_eq_some hclose]
      exact List.mem_append_left _ (by decide)
    refine strtok_isSome (b := 62) ?_ (by decide)
    rw [strchr] at hfound
    split at hfound
    · cases hfound
      exact (List.dropWhile_sublist _).subset (List.mem_of_mem_tail hmem)
    · cases hfound
  · split at h
    · cases h
    · split at h <;> cases h

/-- A line that the check takes for the end of a block is one for the loader. -/
theorem lineKind_chainEnd {t : Bytes} (h : lineKind t = .chainEnd) : isChainEnd t = true := by
  unfold lineKind at h
  split at h
  · split at h <;> cases h
  split at h
  · split at h <;> cases h
  split at h
  · rename_i hprefix
    obtain ⟨s, rfl⟩ := List.isPrefixOf_iff_prefix.mp hprefix
    rfl
  · split at h <;> cases h

theorem chainEnd_unknown {t : Bytes} (h : isChainEnd t = true) :
    isChainLine t = false ∧ isValueLine t = false := by
  obtain ⟨s, rfl⟩ := List.isPrefixOf_iff_prefix.mp h
  exact ⟨rfl, rfl⟩

theorem lineKind_trailer {t : Bytes} (h : lineKind t = .trailer) :
    isTrailer t = true ∧ isChainEnd t = false ∧ isChainLine t = false ∧ isValueLine t = false := by
  have htrailer : isTrailer t = true := by
    unfold lineKind at h
    split at h
    · split at h <;> cases h
    split at h
    · split at h <;> cases h
    split at h
    · cases h
    split at h
    · assumption
    · cases h
  refine ⟨htrailer, ?_⟩
  rw [isTrailer, Bool.or_eq_true, beq_iff_eq, beq_iff_eq] at htrailer
  rcases htrailer with rfl | rfl <;> decide

/-- The trailers are the only lines of their kind. -/
theorem not_trailer {t : Bytes} (h : lineKind t = .value ∨ lineKind t = .chain ∨
    lineKind t = .chainEnd) : isTrailer t = false := by
  rcases h with h | h | h
  · exact (lineKind_value h).2.2.2.1
  · exact (lineKind_chain h).2.2.2.1
  · rw [Bool.eq_false_iff]
    intro htrailer
    have hend := lineKind_chainEnd h
    rw [isTrailer, Bool.or_eq_true, beq_iff_eq, beq_iff_eq] at htrailer
    rcases htrailer with rfl | rfl <;> exact absurd hend (by decide)

/-- The lines between header and trailer, with all blocks closed. -/
inductive Body where
  | done
  | value (line : Bytes) (rest : Body)
  | chain (line : Bytes) (block : Body) (close : Bytes) (rest : Body)

namespace Body

def lines : Body → List Bytes
  | done => []
  | value line rest => line :: rest.lines
  | chain line block close rest => line :: (block.lines ++ close :: rest.lines)

theorem chain_lines_append (line : Bytes) (block : Body) (close : Bytes) (rest : Body)
    (ts : List Bytes) : (chain line block close rest).lines ++ ts =
      line :: (block.lines ++ close :: (rest.lines ++ ts)) := by
  rw [lines, List.cons_append, List.append_assoc, List.cons_append]

/-- Every line is of the kind that its place asks for. -/
def Formed : Body → Prop
  | done => True
  | value line rest => lineKind line = .value ∧ rest.Formed
  | chain line block close rest =>
    lineKind line = .chain ∧ block.Formed ∧ lineKind close = .chainEnd ∧ rest.Formed

theorem Formed.not_trailer {body : Body} (h : body.Formed) :
    ∀ t ∈ body.lines, isTrailer t = false := by
  induction body with
  | done => exact fun t ht => absurd ht List.not_mem_nil
  | value line rest ih =>
    exact List.forall_mem_cons.mpr ⟨XmlGrammar.not_trailer (Or.inl h.1), ih h.2⟩
  | chain line block close rest ihBlock ihRest =>
    obtain ⟨hline, hblock, hclose, hrest⟩ := h
    rw [lines, List.forall_mem_cons]
    refine ⟨XmlGrammar.not_trailer (Or.inr (Or.inl hline)), List.forall_mem_append.mpr ?_⟩
    exact ⟨ihBlock hblock, List.forall_mem_cons.mpr
      ⟨XmlGrammar.not_trailer (Or.inr (Or.inr hclose)), ihRest hrest⟩⟩

/-- Lines are closed blocks in one way only. -/
theorem lines_inj {body body' : Body} (h : body.Formed) (h' : body'.Formed) {e e' : Bytes}
    (he : lineKind e = .chainEnd ∨ lineKind e = .trailer)
    (he' : lineKind e' = .chainEnd ∨ lineKind e' = .trailer) {ts ts' : List Bytes}
    (heq : body.lines ++ e :: ts = body'.lines ++ e' :: ts') :
    body = body' ∧ e = e' ∧ ts = ts' := by
  have hend : ∀ t : Bytes, lineKind t = .chainEnd ∨ lineKind t = .trailer →
      lineKind t ≠ .value ∧ lineKind t ≠ .chain := by
    rintro t (ht | ht) <;> rw [ht] <;> exact ⟨by decide, by decide⟩
  induction body generalizing body' e e' ts ts' with
  | done =>
    cases body' with
    | done => exact ⟨rfl, List.cons.inj heq⟩
    | value line rest =>
      rw [(List.cons.inj heq).1] at he
      exact absurd h'.1 (hend _ he).1
    | chain line block close rest =>
      rw [(List.cons.inj heq).1] at he
      exact absurd h'.1 (hend _ he).2
  | value line rest ih =>
    cases body' with
    | done =>
      rw [← (List.cons.inj heq).1] at he'
      exact absurd h.1 (hend _ he').1
    | value line' rest' =>
      obtain ⟨rfl, hrest⟩ := List.cons.inj heq
      obtain ⟨rfl, hend⟩ := ih h.2 h'.2 he he' hrest
      exact ⟨rfl, hend⟩
    | chain line' block close rest' =>
      have hline := h'.1
      rw [← (List.cons.inj heq).1, h.1] at hline
      cases hline
  | chain line block close rest ihBlock ihRest =>
    cases body' with
    | done =>
      rw [← (List.cons.inj heq).1] at he'
      exact absurd h.1 (hend _ he').2
    | value line' rest' =>
      have hline := h'.1
      rw [← (List.cons.inj heq).1, h.1] at hline
      cases hline
    | chain line' block' close' rest' =>
      obtain ⟨-, hblock, hclose, hrest⟩ := h
      obtain ⟨-, hblock', hclose', hrest'⟩ := h'
      rw [chain_lines_append, chain_lines_append] at heq
      obtain ⟨rfl, hinner⟩ := List.cons.inj heq
      obtain ⟨rfl, rfl, hbehind⟩ := ihBlock hblock hblock' (Or.inl hclose) (Or.inl hclose') hinner
      obtain ⟨rfl, hend⟩ := ihRest hrest hrest' he he' hbehind
      exact ⟨rfl, hend⟩

end Body

/-- The texts of the lines that are not blank. -/
def texts (lines : List Bytes) : List Bytes :=
  (lines.map fun line => trimWhiteSpace (cstr line)).filter fun t => t ≠ []

/-- Every line has its end. -/
def Ended (lines : List Bytes) : Prop :=
  ∀ line ∈ lines, endsLine line = true ∧ line.getLast? = some newline

/-- A stream that is going to give these texts. -/
structure Holds (s : Stream) (ts : List Bytes) : Prop where
  eof : s.eof = false
  ended : Ended s.lines
  texts : texts s.lines = ts

/-- A stream that has come to its end. -/
def spent : Stream := { lines := [], eof := true }

theorem texts_cons (line : Bytes) (lines : List Bytes) :
    texts (line :: lines) = if trimWhiteSpace (cstr line) = [] then texts lines
      else trimWhiteSpace (cstr line) :: texts lines := by
  rw [texts, List.map_cons, List.filter_cons]
  by_cases h : trimWhiteSpace (cstr line) = []
  · rw [if_pos h, if_neg (by simp [h])]
    rfl
  · rw [if_neg h, if_pos (by simp [h])]
    rfl

theorem getLineOf_nil {lines : List Bytes} (hended : Ended lines) (h : texts lines = []) :
    getLineOf lines = (none, spent) := by
  induction lines with
  | nil => rfl
  | cons line lines ih =>
    obtain ⟨⟨hline, -⟩, hrest⟩ := List.forall_mem_cons.mp hended
    rw [texts_cons] at h
    split at h
    · rename_i hblank
      rw [getLineOf, if_pos hline]
      dsimp only
      rw [if_pos hblank, ih hrest h]
    · cases h

theorem getLineOf_cons {lines : List Bytes} (hended : Ended lines) {t : Bytes} {ts : List Bytes}
    (h : texts lines = t :: ts) : ∃ s, getLineOf lines = (some t, s) ∧ Holds s ts ∧
      s.lines.length < lines.length := by
  induction lines with
  | nil => cases h
  | cons line lines ih =>
    obtain ⟨⟨hline, hlast⟩, hrest⟩ := List.forall_mem_cons.mp hended
    rw [texts_cons] at h
    rw [getLineOf, if_pos hline]
    dsimp only
    split at h
    · rename_i hblank
      obtain ⟨s, hs, hholds, hlen⟩ := ih hrest h
      rw [if_pos hblank]
      exact ⟨s, hs, hholds, Nat.lt_succ_of_lt hlen⟩
    · rename_i htext
      cases h
      rw [if_neg htext]
      exact ⟨_, rfl, ⟨by simp [Stream.behind, hlast], hrest, rfl⟩, Nat.lt_succ_self _⟩

theorem Holds.getLine_nil {s : Stream} (h : Holds s []) : getLine s = (none, spent) :=
  getLineOf_nil h.ended h.texts

theorem Holds.getLine_cons {s : Stream} {t : Bytes} {ts : List Bytes} (h : Holds s (t :: ts)) :
    ∃ s', getLine s = (some t, s') ∧ Holds s' ts ∧ s'.lines.length < s.lines.length :=
  getLineOf_cons h.ended h.texts

/-- Lines of values and blocks, in any order, and the trailer behind them. -/
def Listing (ts : List Bytes) : Prop :=
  ∃ pre trailer, ts = pre ++ [trailer] ∧ lineKind trailer = .trailer ∧
    ∀ t ∈ pre, lineKind t = .value ∨ lineKind t = .chain ∨ lineKind t = .chainEnd

theorem checkLines_end {lines : List Bytes} {chainLevel : Nat}
    (h : checkLines lines chainLevel true = some true) :
    (∀ line ∈ lines, endsLine line = true) ∧ texts lines = [] := by
  induction lines with
  | nil => exact ⟨fun line hline => absurd hline List.not_mem_nil, rfl⟩
  | cons line lines ih =>
    rw [checkLines] at h
    split at h
    · cases h
    split at h
    · rename_i hline
      dsimp only at h
      split at h
      · rename_i hblank
        obtain ⟨hends, htexts⟩ := ih h
        rw [texts_cons, if_pos hblank]
        exact ⟨List.forall_mem_cons.mpr ⟨hline, hends⟩, htexts⟩
      · cases h
    · cases h

theorem Listing.cons {t : Bytes} {ts : List Bytes}
    (ht : lineKind t = .value ∨ lineKind t = .chain ∨ lineKind t = .chainEnd) (h : Listing ts) :
    Listing (t :: ts) := by
  obtain ⟨pre, trailer, rfl, htrailer, hpre⟩ := h
  exact ⟨t :: pre, trailer, rfl, htrailer, List.forall_mem_cons.mpr ⟨ht, hpre⟩⟩

theorem checkLines_listing {lines : List Bytes} {chainLevel : Nat}
    (h : checkLines lines chainLevel false = some true) :
    (∀ line ∈ lines, endsLine line = true) ∧ Listing (texts lines) := by
  induction lines generalizing chainLevel with
  | nil => cases h
  | cons line lines ih =>
    rw [checkLines] at h
    split at h
    · cases h
    split at h
    swap
    · cases h
    rename_i hline
    dsimp only at h
    rw [texts_cons]
    split at h
    · rename_i hblank
      obtain ⟨hends, hlisting⟩ := ih h
      rw [if_pos hblank]
      exact ⟨List.forall_mem_cons.mpr ⟨hline, hends⟩, hlisting⟩
    rename_i htext
    rw [if_neg htext]
    split at h
    · cases h
    split at h
    · rename_i hkind
      obtain ⟨hends, hlisting⟩ := ih h
      exact ⟨List.forall_mem_cons.mpr ⟨hline, hends⟩, hlisting.cons (Or.inl hkind)⟩
    · rename_i hkind
      obtain ⟨hends, hlisting⟩ := ih h
      exact ⟨List.forall_mem_cons.mpr ⟨hline, hends⟩, hlisting.cons (Or.inr (Or.inl hkind))⟩
    · rename_i hkind
      split at h
      · cases h
      obtain ⟨hends, hlisting⟩ := ih h
      exact ⟨List.forall_mem_cons.mpr ⟨hline, hends⟩, hlisting.cons (Or.inr (Or.inr hkind))⟩
    · rename_i hkind
      obtain ⟨hends, htexts⟩ := checkLines_end h
      rw [htexts]
      exact ⟨List.forall_mem_cons.mpr ⟨hline, hends⟩, [], _, rfl, hkind,
        fun t ht => absurd ht List.not_mem_nil⟩
    · cases h

/-- Only the last byte of a line can be its end. -/
theorem fgetsLines_last {room : Nat} {line : Bytes} (hline : newline ∉ line) (s : Bytes) :
    ∀ l ∈ fgetsLines room line s, newline ∈ l → l.getLast? = some newline := by
  induction s generalizing line with
  | nil =>
    intro l hl hmem
    rw [fgetsLines] at hl
    split at hl
    · cases hl
    · rw [List.mem_singleton.mp hl] at hmem
      exact absurd hmem hline
  | cons c s ih =>
    rw [fgetsLines]
    by_cases hend : c = newline
    · rw [if_pos (Or.inl hend), hend]
      exact List.forall_mem_cons.mpr
        ⟨fun _ => List.getLast?_concat, ih List.not_mem_nil⟩
    have hmore : newline ∉ line ++ [c] := by
      rw [List.mem_append, List.mem_singleton, not_or]
      exact ⟨hline, Ne.symm hend⟩
    split
    · exact List.forall_mem_cons.mpr ⟨fun hmem => absurd hmem hmore, ih List.not_mem_nil⟩
    · exact ih hmore

theorem ended_of_ends {content : Bytes} {lines : List Bytes}
    (hlines : ∀ line ∈ lines, line ∈ (openFile content).lines)
    (h : ∀ line ∈ lines, endsLine line = true) : Ended lines := by
  intro line hline
  have hend := h line hline
  refine ⟨hend, fgetsLines_last List.not_mem_nil content line (hlines line hline) ?_⟩
  rw [endsLine, beq_iff_eq] at hend
  exact (cstr_isPrefix line).subset (List.mem_of_getLast? hend)

end XmlGrammar
