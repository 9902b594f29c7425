import BoaGateway.ReadHeader

/-!
# The lines of a header

What the loop of `read_header` has made of the bytes so far, said of the lines they consist of.
A line ends with a line feed, and of an odd number of carriage returns in front of it the last
one belongs to the end.
-/

namespace HeaderLines

open ByteBlocks Texts Logline Feeding ReadHeader

/-- The lines that end in the bytes, and what stands behind the last line feed. -/
def splitLines (v : Bytes) : List Bytes × Bytes :=
  v.foldl (fun s c => if c = lf then (s.1 ++ [s.2], []) else (s.1, s.2 ++ [c])) ([], [])

def fullLines (v : Bytes) : List Bytes := (splitLines v).1

def openLine (v : Bytes) : Bytes := (splitLines v).2

theorem splitLines_snoc (v : Bytes) (c : UInt8) : splitLines (v ++ [c]) =
    if c = lf then (fullLines v ++ [openLine v], []) else (fullLines v, openLine v ++ [c]) := by
  rw [splitLines, List.foldl_append]
  rfl

theorem fullLines_lf (v : Bytes) : fullLines (v ++ [lf]) = fullLines v ++ [openLine v] := by
  rw [fullLines, splitLines_snoc, if_pos rfl]

theorem openLine_lf (v : Bytes) : openLine (v ++ [lf]) = [] := by
  rw [openLine, splitLines_snoc, if_pos rfl]

theorem fullLines_snoc {c : UInt8} (hc : c ≠ lf) (v : Bytes) :
    fullLines (v ++ [c]) = fullLines v := by
  rw [fullLines, splitLines_snoc, if_neg hc]

theorem openLine_snoc {c : UInt8} (hc : c ≠ lf) (v : Bytes) :
    openLine (v ++ [c]) = openLine v ++ [c] := by
  rw [openLine, splitLines_snoc, if_neg hc]

/-- Bytes that come later do not change the lines that have ended. -/
theorem fullLines_prefix (u p : Bytes) : fullLines u <+: fullLines (u ++ p) := by
  induction p using List.reverseRecOn with
  | nil => rw [List.append_nil]
  | append_singleton p c ih =>
    rw [← List.append_assoc]
    by_cases hc : c = lf
    · rw [hc, fullLines_lf]
      exact ih.trans (List.prefix_append _ _)
    · rwa [fullLines_snoc hc]

theorem openLine_of_none {v : Bytes} (h : fullLines v = []) : openLine v = v := by
  induction v using List.reverseRecOn with
  | nil => rfl
  | append_singleton v c ih =>
    by_cases hc : c = lf
    · rw [hc, fullLines_lf] at h
      simp at h
    · rw [fullLines_snoc hc] at h
      rw [openLine_snoc hc, ih h]

/-- The number of carriage returns at the end of a line. -/
def crCount (l : Bytes) : Nat := (l.reverse.takeWhile fun c => c == cr).length

@[simp] theorem crCount_nil : crCount [] = 0 := rfl

theorem cr_ne_lf : cr ≠ lf := by decide

theorem crCount_snoc (l : Bytes) (c : UInt8) :
    crCount (l ++ [c]) = if c = cr then crCount l + 1 else 0 := by
  rw [crCount, List.reverse_append, List.reverse_singleton, List.singleton_append,
    List.takeWhile_cons]
  by_cases hc : c = cr
  · simp [hc, crCount]
  · simp [hc]

/-- The text of a line, and what is left of its end behind the zero byte. -/
def lineText (l : Bytes) : Bytes := if crCount l % 2 = 1 then l.dropLast else l

def newline (l : Bytes) : Bytes := if crCount l % 2 = 1 then [lf] else []

theorem lineText_length (l : Bytes) : (lineText l).length + (newline l).length = l.length := by
  rw [lineText, newline]
  split
  · rename_i hodd
    have hpos : 0 < l.length := by
      rw [List.length_pos_iff]
      rintro rfl
      exact absurd hodd (by decide)
    rw [List.length_dropLast, List.length_singleton]
    omega
  · rfl

/-- The status behind the bytes of a line. -/
def lineStatus (first : Bool) (l : Bytes) : Status :=
  if l = [] then if first then .readHeader else .oneLf
  else if crCount l % 2 = 0 then .readHeader
  else if l = [cr] ∧ first = false then .twoCr
  else .oneCr

/-- The page that the request line is answered with, or what is kept of it. -/
def requestLine (l : Bytes) : Except ErrorPage Line :=
  processLogline (lineText l) (lineText l).length

/-- A line that ends the header. -/
def isBlank (l : Bytes) : Bool := l == [] || l == [cr]

/-- The header has its end: the request line is refused or has no version, or a blank line comes
behind it. -/
def headerEnds (v : Bytes) : Bool :=
  match fullLines v with
  | [] => false
  | l :: ls => (match requestLine l with
    | .error _ => true
    | .ok line => line.simple) || ls.any isBlank

/-- The page of a request line that is refused. -/
def lineRefusal (v : Bytes) : Option ErrorPage :=
  match fullLines v with
  | [] => none
  | l :: _ => match requestLine l with
    | .error page => some page
    | .ok _ => none

/-- What is left of the lines: the values, the stream and the lines that have been eaten. -/
structure Kept where
  values : Values
  stream : Bytes
  eaten : List Bytes

def Kept.option (kaMax : Nat) (k : Kept) (l : Bytes) : Kept :=
  match processOptionLine kaMax k.values (lineText l) with
  | (v, some kept) => ⟨v, k.stream ++ (kept ++ 0 :: newline l), k.eaten⟩
  | (v, none) => ⟨v, k.stream ++ newline l, k.eaten ++ [l]⟩

def keptLines (kaMax : Nat) (kaStopped : Bool) : List Bytes → Kept
  | [] => ⟨{ noValues with kaStopped := kaStopped }, [], []⟩
  | l :: ls => ls.foldl (Kept.option kaMax)
      ⟨{ noValues with kaStopped := kaStopped }, lineText l ++ 0 :: newline l, []⟩

theorem keptLines_snoc (kaMax : Nat) (kaStopped : Bool) {ls : List Bytes} (hls : ls ≠ [])
    (l : Bytes) : keptLines kaMax kaStopped (ls ++ [l]) =
      (keptLines kaMax kaStopped ls).option kaMax l := by
  cases ls with
  | nil => exact absurd rfl hls
  | cons l' ls =>
    rw [List.cons_append, keptLines, List.foldl_append]
    rfl

/-- What is kept of a request line that has ended. -/
def acceptedLine (v : Bytes) : Option Line :=
  (fullLines v).head?.bind fun l => (requestLine l).toOption

def streamOf (kaMax : Nat) (kaStopped : Bool) (v : Bytes) : Stream where
  status := lineStatus (fullLines v).isEmpty (openLine v)
  before := (keptLines kaMax kaStopped (fullLines v)).stream
  line := openLine v
  logline := acceptedLine v
  values := (keptLines kaMax kaStopped (fullLines v)).values

/-- One round of the loop as if the buffer had no end. -/
def scanStep (kaMax : Nat) (s : Stream) (c : UInt8) : Step Stream Ended :=
  match streamStep kaMax s.line.length false s c with
  | .ended e => .ended e
  | .more (s', _) => .more s'

theorem lineEnd_pos (kaMax : Nat) (s : Stream) (newline : Bytes) {text : Bytes} {pos pos' : Nat}
    (hpos : text.length ≤ pos) (hpos' : text.length ≤ pos') :
    lineEnd kaMax pos s text newline = lineEnd kaMax pos' s text newline := by
  unfold lineEnd
  rw [processLogline_pos text hpos, processLogline_pos text hpos']

theorem lineStatus_snoc (first : Bool) (l : Bytes) (c : UInt8) : lineStatus first (l ++ [c]) =
    if c = cr then
      if crCount l % 2 = 1 then .readHeader
      else if l = [] ∧ first = false then .twoCr
      else .oneCr
    else .readHeader := by
  have hne : l ++ [c] ≠ [] := by simp
  have hcr : l ++ [c] = [cr] ↔ l = [] ∧ c = cr := by
    cases l <;> simp
  simp only [lineStatus, if_neg hne, crCount_snoc, hcr]
  by_cases hc : c = cr
  · have hodd : (crCount l + 1) % 2 = 0 ↔ crCount l % 2 = 1 := by omega
    simp only [hc, if_true, hodd, and_true]
  · simp [hc]

/-- A byte inside a line only changes the status. -/
theorem streamStep_inside (kaMax pos : Nat) {s : Stream} {c : UInt8} {first : Bool}
    (hstatus : s.status = lineStatus first s.line) (hc : c ≠ lf) :
    streamStep kaMax pos false s c = s.go (lineStatus first (s.line ++ [c])) c := by
  rw [lineStatus_snoc, streamStep, hstatus, lineStatus]
  by_cases hline : s.line = []
  · cases first <;> by_cases h : c = cr <;> simp [h, hc, hline]
  · rw [if_neg hline]
    by_cases heven : crCount s.line % 2 = 0
    · by_cases h : c = cr <;> simp [h, hc, hline, heven]
    · have hodd : crCount s.line % 2 = 1 := by omega
      rw [if_neg heven, if_pos hodd, ite_self]
      have htwo : (if s.line = [cr] ∧ first = false then Status.twoCr else .oneCr) = .twoCr ∨
          (if s.line = [cr] ∧ first = false then Status.twoCr else .oneCr) = .oneCr := by
        split <;> simp
      rcases htwo with htwo | htwo <;> rw [htwo] <;> simp [hc]

/-- A line feed ends a line that is not blank. -/
theorem streamStep_lf (kaMax : Nat) {s : Stream} {first : Bool}
    (hstatus : s.status = lineStatus first s.line) (hblank : first = true ∨ isBlank s.line = false) :
    streamStep kaMax s.line.length false s lf =
      lineEnd kaMax (lineText s.line).length s (lineText s.line) (newline s.line) := by
  have hne : lf ≠ cr := cr_ne_lf.symm
  have hshort : (lineText s.line).length ≤ s.line.length := by
    have hlen := lineText_length s.line
    omega
  rw [lineEnd_pos kaMax s (newline s.line) le_rfl hshort, streamStep, hstatus, lineStatus]
  by_cases hline : s.line = []
  · have hfirst : first = true := by
      refine hblank.resolve_right ?_
      simp [isBlank, hline]
    rw [if_pos hline, hfirst, if_pos rfl]
    simp [hline, hne, lineText, newline]
  · rw [if_neg hline]
    by_cases heven : crCount s.line % 2 = 0
    · simp [heven, hne, lineText, newline]
    · have hodd : crCount s.line % 2 = 1 := by omega
      have hnot : ¬ (s.line = [cr] ∧ first = false) := by
        rintro ⟨hcr, hfirst⟩
        rcases hblank with h | h
        · rw [hfirst] at h
          cases h
        · simp [isBlank, hcr] at h
      rw [if_neg heven, if_neg hnot]
      simp [hodd, lineText, newline]

theorem streamStep_blank (kaMax pos : Nat) {s : Stream}
    (hstatus : s.status = lineStatus false s.line) (hblank : isBlank s.line = true) :
    streamStep kaMax pos false s lf = .ended (.headerEnd s.logline s.values) := by
  have hne : lf ≠ cr := cr_ne_lf.symm
  rw [isBlank, Bool.or_eq_true, beq_iff_eq, beq_iff_eq] at hblank
  rw [streamStep, hstatus]
  rcases hblank with h | h
  · simp [lineStatus, h, hne]
  · simp [lineStatus, h, crCount]

/-- What the next byte makes of a header that has not ended: the header still has no end, and the
stream is that of its lines; or it ends, and is refused for its request line only. -/
theorem scanStep_streamOf (kaMax : Nat) (kaStopped : Bool) {v : Bytes} (h : headerEnds v = false)
    (c : UInt8) :
    (headerEnds (v ++ [c]) = false ∧
        scanStep kaMax (streamOf kaMax kaStopped v) c = .more (streamOf kaMax kaStopped (v ++ [c]))) ∨
      (headerEnds (v ++ [c]) = true ∧ ∃ e, scanStep kaMax (streamOf kaMax kaStopped v) c = .ended e ∧
        ∀ page, e = .refused page ↔ lineRefusal (v ++ [c]) = some page) := by
  have hstatus : (streamOf kaMax kaStopped v).status =
      lineStatus (fullLines v).isEmpty (streamOf kaMax kaStopped v).line := rfl
  by_cases hc : c = lf
  swap
  · have hends : headerEnds (v ++ [c]) = false := by rwa [headerEnds, fullLines_snoc hc]
    refine Or.inl ⟨hends, ?_⟩
    rw [scanStep, streamStep_inside kaMax _ hstatus hc]
    simp only [Stream.go, streamOf, acceptedLine, fullLines_snoc hc, openLine_snoc hc]
  subst hc
  rw [headerEnds, lineRefusal, fullLines_lf]
  cases hlines : fullLines v with
  | nil =>
    -- the request line ends
    have hline := streamStep_lf kaMax hstatus (Or.inl (by rw [hlines]; rfl))
    rw [scanStep, hline, lineEnd]
    simp only [streamOf, acceptedLine, hlines, List.nil_append, List.head?_nil, Option.bind_none,
      List.any_nil, Bool.or_false]
    cases hrequest : requestLine (openLine v) with
    | error page =>
      rw [requestLine] at hrequest
      simp [hrequest, eq_comm]
    | ok line =>
      have hprocess := hrequest
      rw [requestLine] at hprocess
      cases hsimple : line.simple with
      | true => simp [hprocess, hsimple]
      | false =>
        refine Or.inl ⟨by simp [hsimple], ?_⟩
        simp only [hprocess, hsimple, Bool.false_eq_true, if_false, fullLines_lf, hlines, openLine_lf]
        simp [keptLines, hrequest, lineStatus, Except.toOption]
  | cons l ls =>
    rw [headerEnds, hlines] at h
    obtain ⟨hfirst, hblank⟩ := Bool.or_eq_false_iff.mp h
    obtain ⟨line, hrequest, hsimple⟩ : ∃ line, requestLine l = .ok line ∧ line.simple = false := by
      cases hrequest : requestLine l with
      | error page => simp [hrequest] at hfirst
      | ok line => exact ⟨line, rfl, by simpa [hrequest] using hfirst⟩
    simp only [List.cons_append, hrequest, hsimple, Bool.false_or, List.any_append, hblank,
      List.any_cons, List.any_nil, Bool.or_false]
    rw [hlines] at hstatus
    cases hopen : isBlank (openLine v) with
    | true =>
      refine Or.inr ⟨rfl, _, by rw [scanStep, streamStep_blank kaMax _ hstatus hopen], ?_⟩
      simp
    | false =>
      refine Or.inl ⟨rfl, ?_⟩
      have hline := streamStep_lf kaMax hstatus (Or.inr hopen)
      have hkept := keptLines_snoc kaMax kaStopped (List.cons_ne_nil l ls) (openLine v)
      rw [scanStep, hline, lineEnd]
      simp only [streamOf, acceptedLine, fullLines_lf, hlines, hkept, openLine_lf, Kept.option]
      simp only [List.cons_append, List.head?_cons, Option.bind_some, hrequest, Except.toOption]
      rcases processOptionLine kaMax (keptLines kaMax kaStopped (l :: ls)).values
        (lineText (openLine v)) with ⟨values, _ | kept⟩ <;> rfl

/-- Bytes behind the end of the header do not change it. -/
theorem ends_append {v : Bytes} (h : headerEnds v = true) (w : Bytes) :
    headerEnds (v ++ w) = true ∧ lineRefusal (v ++ w) = lineRefusal v := by
  obtain ⟨more, hmore⟩ := fullLines_prefix v w
  rw [headerEnds, lineRefusal, ← hmore]
  rw [headerEnds] at h
  rw [lineRefusal]
  cases hlines : fullLines v with
  | nil =>
    rw [hlines] at h
    cases h
  | cons l ls =>
    rw [hlines] at h
    refine ⟨?_, rfl⟩
    simp only [List.cons_append, List.any_append, Bool.or_eq_true] at h ⊢
    exact h.imp_right Or.inl

/-- What the loop makes of bytes, as far as the header does not end. -/
theorem feed_streamOf (kaMax : Nat) (kaStopped : Bool) (v : Bytes) :
    (headerEnds v = false ∧ feed (scanStep kaMax) (newReader kaStopped).toStream v =
        .more (streamOf kaMax kaStopped v)) ∨
      (headerEnds v = true ∧ ∃ e unread,
        feed (scanStep kaMax) (newReader kaStopped).toStream v = .ended e unread ∧
          ∀ page, e = .refused page ↔ lineRefusal v = some page) := by
  induction v using List.reverseRecOn with
  | nil => exact Or.inl ⟨rfl, rfl⟩
  | append_singleton v c ih =>
    rcases ih with ⟨hopen, hfeed⟩ | ⟨hends, e, unread, hfeed, hpage⟩
    · rw [feed_append_more hfeed]
      rcases scanStep_streamOf kaMax kaStopped hopen c with ⟨hopen', hstep⟩ | ⟨hends, e, hstep, hpage⟩
      · exact Or.inl ⟨hopen', feed_cons_more hstep []⟩
      · exact Or.inr ⟨hends, e, [], feed_cons_ended hstep [], hpage⟩
    · obtain ⟨hends', hsame⟩ := ends_append hends [c]
      rw [hsame]
      exact Or.inr ⟨hends', e, _, feed_append_ended hfeed [c], hpage⟩

/-- The bytes that the eaten lines took with them. -/
def eatenSize (ls : List Bytes) : Nat := (ls.map fun l => (lineText l).length + 1).sum

theorem eatenSize_append (ls ls' : List Bytes) :
    eatenSize (ls ++ ls') = eatenSize ls + eatenSize ls' := by
  rw [eatenSize, List.map_append, List.sum_append]
  rfl

theorem eatenSize_eq_zero {ls : List Bytes} : eatenSize ls = 0 ↔ ls = [] := by
  cases ls <;> simp [eatenSize]

theorem processOptionLine_length {kaMax : Nat} {v v' : Values} {text kept : Bytes}
    (h : processOptionLine kaMax v text = (v', some kept)) : kept.length = text.length := by
  unfold processOptionLine at h
  dsimp only at h
  split at h
  · cases h
    rfl
  · rename_i hcolon
    obtain ⟨-, he⟩ := Prod.mk.inj h
    split at he
    · cases he
    · cases he
      have hname := (cstr_isPrefix text).length_le
      simp only [toUpper, List.length_append, List.length_map, List.length_cons, List.length_drop]
      omega

/-- A line is kept with one byte for its line feed, or its text and one byte go. -/
theorem option_length (kaMax : Nat) (k : Kept) (l : Bytes) :
    (k.option kaMax l).stream.length + eatenSize (k.option kaMax l).eaten =
      k.stream.length + eatenSize k.eaten + (l.length + 1) := by
  have hlen := lineText_length l
  rw [Kept.option]
  cases hkept : processOptionLine kaMax k.values (lineText l) with
  | mk values kept =>
    cases kept with
    | none =>
      simp only [eatenSize_append, List.length_append]
      simp only [eatenSize, List.map_cons, List.map_nil, List.sum_cons, List.sum_nil]
      omega
    | some kept =>
      have hsame := processOptionLine_length hkept
      simp only [List.length_append, List.length_cons]
      omega

/-- The lines that have been eaten stay eaten. -/
theorem option_eaten (kaMax : Nat) (k : Kept) (l : Bytes) :
    k.eaten <+: (k.option kaMax l).eaten := by
  rw [Kept.option]
  split
  · exact List.prefix_rfl
  · exact List.prefix_append _ _

theorem keptLines_length (kaMax : Nat) (kaStopped : Bool) (v : Bytes) :
    (streamOf kaMax kaStopped v).bytes.length +
      eatenSize (keptLines kaMax kaStopped (fullLines v)).eaten = v.length := by
  induction v using List.reverseRecOn with
  | nil => rfl
  | append_singleton v c ih =>
    rw [Stream.bytes, List.length_append] at ih ⊢
    simp only [streamOf] at ih ⊢
    rw [List.length_append, List.length_singleton]
    by_cases hc : c = lf
    swap
    · rw [fullLines_snoc hc, openLine_snoc hc, List.length_append, List.length_singleton]
      omega
    subst hc
    rw [fullLines_lf, openLine_lf, List.length_nil]
    by_cases hlines : fullLines v = []
    · have hlen := lineText_length (openLine v)
      simp only [hlines, keptLines, List.nil_append, List.foldl_nil, List.length_append,
        List.length_cons, List.length_nil] at ih ⊢
      simp only [eatenSize, List.map_nil, List.sum_nil] at ih ⊢
      omega
    · rw [keptLines_snoc kaMax kaStopped hlines]
      have hlen := option_length kaMax (keptLines kaMax kaStopped (fullLines v)) (openLine v)
      omega

theorem eaten_prefix (kaMax : Nat) (kaStopped : Bool) (u p : Bytes) :
    (keptLines kaMax kaStopped (fullLines u)).eaten <+:
      (keptLines kaMax kaStopped (fullLines (u ++ p))).eaten := by
  induction p using List.reverseRecOn with
  | nil => rw [List.append_nil]
  | append_singleton p c ih =>
    rw [← List.append_assoc]
    by_cases hc : c = lf
    swap
    · rwa [fullLines_snoc hc]
    rw [hc, fullLines_lf]
    by_cases hlines : fullLines (u ++ p) = []
    · rw [hlines] at ih ⊢
      exact ih
    · rw [keptLines_snoc kaMax kaStopped hlines]
      exact ih.trans (option_eaten _ _ _)

/-- A line that ends in the bytes is eaten exactly if the stream grows by less than they are. -/
theorem eaten_iff (kaMax : Nat) (kaStopped : Bool) (u p : Bytes) :
    (streamOf kaMax kaStopped (u ++ p)).bytes.length <
        (streamOf kaMax kaStopped u).bytes.length + p.length ↔
      (keptLines kaMax kaStopped (fullLines (u ++ p))).eaten ≠
        (keptLines kaMax kaStopped (fullLines u)).eaten := by
  have hu := keptLines_length kaMax kaStopped u
  have hup := keptLines_length kaMax kaStopped (u ++ p)
  rw [List.length_append] at hup
  obtain ⟨more, hmore⟩ := eaten_prefix kaMax kaStopped u p
  rw [← hmore, eatenSize_append] at hup
  rw [← hmore, ne_eq, List.append_right_eq_self, ← eatenSize_eq_zero]
  omega

end HeaderLines
