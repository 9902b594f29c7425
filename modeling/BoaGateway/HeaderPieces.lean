import BoaGateway.HeaderLines

/-!
# A header in pieces

The loop of `read_header` makes the same of a header wherever it is cut. The tests behind
the loop do not: a piece that ends inside a line is refused as malformed, unless a line of
this piece has been eaten or the piece starts with a zero byte by now.
-/

namespace HeaderPieces

open ByteBlocks Texts Logline Feeding ReadHeader HeaderLines

/-- The bytes end inside a line, and not right behind a carriage return that may belong to its
end. -/
def endsInLine (v : Bytes) : Bool := openLine v != [] && crCount (openLine v) % 2 == 0

/-- What is left of a piece that has come behind other bytes. -/
def leftOf (kaMax : Nat) (kaStopped : Bool) (u p : Bytes) : Bytes :=
  (streamOf kaMax kaStopped (u ++ p)).bytes.drop (streamOf kaMax kaStopped u).bytes.length

/-- The page that is sent behind a piece in which the header does not end. -/
def pieceRefusal (kaMax : Nat) (kaStopped : Bool) (u : Bytes) (p : Piece) : Option ErrorPage :=
  let v := u ++ p.bytes
  let head := (acceptedLine v).any fun l => l.method == .head
  let left := leftOf kaMax kaStopped u p.bytes
  if endsInLine v = false then none
  else if fullLines v = [] ∧ requestType v v.length = .invalid then some (.badRequest false false)
  else if (keptLines kaMax kaStopped (fullLines v)).eaten ≠
      (keptLines kaMax kaStopped (fullLines u)).eaten then none
  else if left.head? = some 0 then none
  else if clientStreamSize ≤ strlenBuffer left p.behind then
    some (.tooLarge head false ((acceptedLine v).map fun l => l.requestUri))
  else some (.badRequest head false)

/-- The first such page, as long as the header has not ended. -/
def firstRefusal (kaMax : Nat) (kaStopped : Bool) : Bytes → List Piece → Option ErrorPage
  | _, [] => none
  | u, p :: ps =>
    if headerEnds (u ++ p.bytes) then none
    else
      match pieceRefusal kaMax kaStopped u p with
      | some page => some page
      | none => firstRefusal kaMax kaStopped (u ++ p.bytes) ps

/-- A round depends on what was received behind the byte only at the end of the buffer. -/
theorem streamStep_eq (kaMax : Nat) {s : Stream} {c : UInt8} {pos : Nat} {last : Bool}
    (hpos : s.line.length ≤ pos)
    (hlast : last = true → s.status = .readHeader → c = cr ∨ c = lf) :
    streamStep kaMax pos last s c = streamStep kaMax s.line.length false s c := by
  unfold streamStep
  split
  · rename_i hstatus
    by_cases hcr : c = cr
    · rw [if_pos hcr, if_pos hcr]
    · rw [if_neg hcr, if_neg hcr]
      by_cases hlf : c = lf
      · rw [if_pos (Or.inl hlf), if_pos (Or.inl hlf)]
        exact lineEnd_pos kaMax s [] hpos le_rfl
      · have hno : last ≠ true := by
          intro htrue
          rcases hlast htrue hstatus with h | h
          · exact hcr h
          · exact hlf h
        rw [if_neg (by simp [hlf, hno]), if_neg (by simp [hlf])]
  · by_cases hlf : c = lf
    · rw [if_pos hlf, if_pos hlf]
      have hdrop : s.line.dropLast.length ≤ s.line.length := by
        rw [List.length_dropLast]
        exact Nat.sub_le _ 1
      exact lineEnd_pos kaMax s [lf] (hdrop.trans hpos) hdrop
    · rw [if_neg hlf, if_neg hlf]
  · rfl
  · rfl

/-- In state `ONE_CR` the line has its carriage return. -/
def LineOk (s : Stream) : Prop := s.status = .oneCr → s.line ≠ []

/-- The end of a line adds one byte to the stream, apart from those that are moved over. -/
theorem lineEnd_length {kaMax pos : Nat} {s s' : Stream} {text newline : Bytes} {count : Nat}
    (hlen : text.length + newline.length = s.line.length)
    (h : lineEnd kaMax pos s text newline = .more (s', count)) :
    s'.bytes.length + count = s.bytes.length + 1 ∧ LineOk s' := by
  unfold lineEnd at h
  split at h
  · split at h
    · cases h
    split at h
    · cases h
    · cases h
      refine ⟨?_, by rintro ⟨⟩⟩
      simp only [Stream.bytes, List.length_append, List.length_cons, List.length_nil]
      omega
  · split at h
    · rename_i kept hkept
      have hsame := processOptionLine_length hkept
      cases h
      refine ⟨?_, by rintro ⟨⟩⟩
      simp only [Stream.bytes, List.length_append, List.length_cons, List.length_nil]
      omega
    · cases h
      refine ⟨?_, by rintro ⟨⟩⟩
      simp only [Stream.bytes, List.length_append, List.length_nil]
      omega

theorem go_length {s s' : Stream} {status : Status} {c : UInt8} {count : Nat}
    (h : s.go status c = .more (s', count)) :
    s'.bytes.length + count = s.bytes.length + 1 ∧ LineOk s' := by
  cases h
  constructor
  · simp only [Stream.bytes, List.length_append, List.length_singleton]
    omega
  · intro _ hnil
    simp at hnil

/-- A round adds one byte to the stream, apart from those that are moved over. -/
theorem streamStep_length {kaMax pos : Nat} {last : Bool} {s s' : Stream} {c : UInt8} {count : Nat}
    (hline : LineOk s) (h : streamStep kaMax pos last s c = .more (s', count)) :
    s'.bytes.length + count = s.bytes.length + 1 ∧ LineOk s' := by
  unfold streamStep at h
  split at h
  · split at h
    · exact go_length h
    split at h
    · exact lineEnd_length (by simp) h
    · exact go_length h
  · rename_i hstatus
    split at h
    · refine lineEnd_length ?_ h
      have hne := List.length_pos_iff.mpr (hline hstatus)
      simp only [List.length_dropLast, List.length_singleton]
      omega
    · exact go_length h
  · split at h
    · exact go_length h
    split at h
    · cases h
    · exact go_length h
  · split at h
    · cases h
    · exact go_length h

/-- A reader and the scan of the bytes that are left: `xs` of the piece, then `ys`. The piece
starts at `start` and ends at `stop`, if no line of it is eaten. -/
structure Scans (kaMax start stop : Nat) (ys : Bytes) (r : Reader) (s : Stream) (xs : Bytes) :
    Prop where
  same : r.toStream = s
  line : LineOk s
  pos : r.pos = s.bytes.length + xs.length
  room : s.bytes.length + xs.length + ys.length ≤ r.bufferAt + clientStreamSize
  complete : ∃ e unread, feed (scanStep kaMax) s (xs ++ ys) = .ended e unread
  start_eq : r.bufferAt = start
  stop_le : r.pos ≤ stop
  restart_iff : r.restart = true ↔ r.pos < stop

/-- The loop and the scan do the same with a byte. -/
theorem step_scans {kaMax start stop : Nat} {ys : Bytes} (r : Reader) (s : Stream) (c : UInt8)
    (xs : Bytes) (h : Scans kaMax start stop ys r s (c :: xs)) :
    (∃ e, r.step kaMax c = .ended e ∧ scanStep kaMax s c = .ended e) ∨
      ∃ r' s', r.step kaMax c = .more r' ∧ scanStep kaMax s c = .more s' ∧
        Scans kaMax start stop ys r' s' xs := by
  obtain ⟨rfl, hline, hpos, hroom, hcomplete, hstart, hstop, hrestart⟩ := h
  have hlen : r.line.length ≤ r.pos := by
    rw [hpos]
    simp only [Stream.bytes, List.length_append]
    omega
  -- at the end of the buffer the bytes are used up, and a complete header ends with a line
  have hlast : decide (r.bytes.length = r.bufferAt + clientStreamSize - 1) = true →
      r.status = .readHeader → c = cr ∨ c = lf := by
    intro hend hstatus
    have hsize : clientStreamSize = 4096 := rfl
    have hat := of_decide_eq_true hend
    simp only [List.length_cons] at hroom
    have hxs : xs = [] := List.length_eq_zero_iff.mp (by omega)
    have hys : ys = [] := List.length_eq_zero_iff.mp (by omega)
    by_contra hno
    rw [not_or] at hno
    have hscan : scanStep kaMax r.toStream c =
        .more { r.toStream with status := .readHeader, line := r.line ++ [c] } := by
      unfold scanStep streamStep
      rw [hstatus]
      simp [hno.1, hno.2, Stream.go]
    obtain ⟨e, unread, hfeed⟩ := hcomplete
    rw [hxs, hys, List.append_nil, feed_cons_more hscan] at hfeed
    cases hfeed
  have hstep := streamStep_eq kaMax hlen hlast
  unfold Reader.step scanStep
  dsimp only
  rw [hstep]
  cases hs : streamStep kaMax r.line.length false r.toStream c with
  | ended e => exact Or.inl ⟨e, rfl, rfl⟩
  | more p =>
    obtain ⟨s', count⟩ := p
    obtain ⟨hcount, hline'⟩ := streamStep_length hline hs
    refine Or.inr ⟨_, s', rfl, rfl, rfl, hline', ?_, ?_, ?_, hstart, ?_, ?_⟩
    · simp only [hpos, List.length_cons]
      omega
    · simp only [List.length_cons] at hroom ⊢
      omega
    · obtain ⟨e, unread, hfeed⟩ := hcomplete
      have hscan : scanStep kaMax r.toStream c = .more s' := by
        unfold scanStep
        rw [hs]
      rw [List.cons_append, feed_cons_more hscan] at hfeed
      exact ⟨e, unread, hfeed⟩
    · exact (Nat.sub_le _ _).trans hstop
    · simp only [List.length_cons] at hpos
      simp only [Bool.or_eq_true, hrestart, bne_iff_ne]
      omega

/-- The loop and the scan do the same with a piece. -/
theorem piece_scans {kaMax : Nat} {r : Reader} {xs ys : Bytes} (hline : LineOk r.toStream)
    (hpos : r.pos = r.bytes.length) (hroom : xs.length + ys.length ≤ clientStreamSize)
    (hcomplete : ∃ e unread, feed (scanStep kaMax) r.toStream (xs ++ ys) = .ended e unread) :
    (∃ e unread, feed (Reader.step kaMax) (r.receive xs) xs = .ended e unread ∧
        feed (scanStep kaMax) r.toStream xs = .ended e unread) ∨
      ∃ r' : Reader, feed (Reader.step kaMax) (r.receive xs) xs = .more r' ∧
        feed (scanStep kaMax) r.toStream xs = .more r'.toStream ∧
        LineOk r'.toStream ∧ r'.pos = r'.bytes.length ∧ r'.bufferAt = r.bytes.length ∧
        (r'.restart = true ↔ r'.bytes.length < r.bytes.length + xs.length) := by
  have hstart : Scans kaMax r.bytes.length (r.bytes.length + xs.length) ys (r.receive xs)
      r.toStream xs := by
    refine ⟨rfl, hline, ?_, ?_, hcomplete, hpos, ?_, ?_⟩
    · exact congrArg (· + xs.length) hpos
    · change _ ≤ r.pos + clientStreamSize
      omega
    · exact (congrArg (· + xs.length) hpos).le
    · refine iff_of_false Bool.false_ne_true ?_
      exact Nat.not_lt_of_ge (congrArg (· + xs.length) hpos).ge
  rcases feed_agrees step_scans hstart with ⟨e, unread, hs, ht⟩ | ⟨r', s', hs, ht, hscans⟩
  · exact Or.inl ⟨e, unread, hs, ht⟩
  · obtain ⟨rfl, hline', hpos', -, -, hat, -, hrestart⟩ := hscans
    have hend : r'.pos = r'.bytes.length := hpos'
    rw [hend] at hrestart
    exact Or.inr ⟨r', hs, ht, hline', hend, hat, hrestart⟩

theorem option_stream (kaMax : Nat) (k : Kept) (ls : List Bytes) :
    k.stream <+: (ls.foldl (Kept.option kaMax) k).stream := by
  induction ls generalizing k with
  | nil => exact List.prefix_rfl
  | cons l ls ih =>
    refine List.IsPrefix.trans ?_ (ih (k.option kaMax l))
    rw [Kept.option]
    split
    · exact List.prefix_append _ _
    · exact List.prefix_append _ _

/-- A line that is read has a method in front. -/
theorem processLogline_method {l : Bytes} {pos : Nat} {line : Line}
    (h : processLogline l pos = .ok line) :
    ∃ t ∈ requestTypes, t.1.length ≤ pos ∧ t.1 <+: l := by
  cases hfind : requestTypes.find? fun t => decide (t.1.length ≤ pos) && t.1.isPrefixOf l with
  | none =>
    rw [processLogline, requestType, hfind] at h
    cases hshort : requestTypes.any fun t => decide (pos < t.1.length) with
    | true =>
      simp only [hshort, if_true] at h
      cases h
    | false =>
      simp only [hshort, Bool.false_eq_true, if_false] at h
      cases h
  | some t =>
    have htest := List.find?_some hfind
    rw [Bool.and_eq_true, decide_eq_true_eq, List.isPrefixOf_iff_prefix] at htest
    exact ⟨t, List.mem_of_find?_eq_some hfind, htest⟩

/-- The method of a request line is still in front when lines behind it have ended. -/
theorem requestType_known {l stream : Bytes} {line : Line} {pos : Nat}
    (h : requestLine l = .ok line) (hpre : lineText l <+: stream)
    (hpos : (lineText l).length ≤ pos) : requestType stream pos ≠ .invalid := by
  obtain ⟨t, hmem, hlen, hmethod⟩ := processLogline_method h
  have hsome : (requestTypes.find? fun t =>
      decide (t.1.length ≤ pos) && t.1.isPrefixOf stream).isSome := by
    rw [List.find?_isSome]
    refine ⟨t, hmem, ?_⟩
    rw [Bool.and_eq_true, decide_eq_true_eq, List.isPrefixOf_iff_prefix]
    exact ⟨hlen.trans hpos, hmethod.trans hpre⟩
  obtain ⟨t', ht'⟩ := Option.isSome_iff_exists.mp hsome
  rw [requestType, ht']
  exact nofun

theorem strlenBuffer_pos {s : Bytes} (hs : s ≠ []) (behind : Nat) :
    0 < strlenBuffer s behind ↔ s.head? ≠ some 0 := by
  cases s with
  | nil => exact absurd rfl hs
  | cons c s =>
    rw [strlenBuffer, cstr]
    by_cases hc : c = 0
    · simp [hc]
    · rw [if_neg hc]
      refine iff_of_true ?_ (by simpa using hc)
      simp only [List.length_cons]
      split <;> omega

theorem lineStatus_readHeader {v : Bytes} (hv : v ≠ []) :
    lineStatus (fullLines v).isEmpty (openLine v) = .readHeader ↔ endsInLine v = true := by
  rw [lineStatus, endsInLine, Bool.and_eq_true, bne_iff_ne, beq_iff_eq]
  by_cases hopen : openLine v = []
  · have hlines : fullLines v ≠ [] := fun h => hv ((openLine_of_none h).symm.trans hopen)
    simp [hopen, hlines]
  · rw [if_neg hopen]
    by_cases heven : crCount (openLine v) % 2 = 0
    · simp [hopen, heven]
    · rw [if_neg heven]
      split <;> simp [heven]

/-- The bytes that are left do not begin like a method only if the request line has not ended. -/
theorem requestType_streamOf {kaMax : Nat} {kaStopped : Bool} {v : Bytes}
    (hends : headerEnds v = false) :
    requestType (streamOf kaMax kaStopped v).bytes (streamOf kaMax kaStopped v).bytes.length =
        .invalid ↔ fullLines v = [] ∧ requestType v v.length = .invalid := by
  cases hlines : fullLines v with
  | nil =>
    have hbytes : (streamOf kaMax kaStopped v).bytes = v := by
      simp only [Stream.bytes, streamOf, hlines, keptLines, List.nil_append]
      exact openLine_of_none hlines
    rw [hbytes, eq_self, true_and]
  | cons l ls =>
    refine iff_of_false ?_ fun h => absurd h.1 (List.cons_ne_nil l ls)
    rw [headerEnds, hlines] at hends
    have hfirst := (Bool.or_eq_false_iff.mp hends).1
    have hpre : lineText l <+: (streamOf kaMax kaStopped v).bytes := by
      simp only [Stream.bytes, streamOf, hlines, keptLines]
      refine List.IsPrefix.trans ?_ (List.prefix_append _ _)
      have hstart := option_stream kaMax
        ⟨{ noValues with kaStopped := kaStopped }, lineText l ++ 0 :: newline l, []⟩ ls
      exact List.IsPrefix.trans (List.prefix_append _ (0 :: newline l)) hstart
    cases hrequest : requestLine l with
    | error page => simp [hrequest] at hfirst
    | ok line => exact requestType_known hrequest hpre hpre.length_le

/-- The tests behind the loop, said of the bytes so far. -/
theorem pieceEnd_eq {kaMax : Nat} {kaStopped : Bool} {u : Bytes} {p : Piece} {r : Reader}
    (hends : headerEnds (u ++ p.bytes) = false) (hp : p.bytes ≠ [])
    (hsame : r.toStream = streamOf kaMax kaStopped (u ++ p.bytes))
    (hpos : r.pos = r.bytes.length)
    (hat : r.bufferAt = (streamOf kaMax kaStopped u).bytes.length)
    (hrestart : r.restart = true ↔
      r.bytes.length < (streamOf kaMax kaStopped u).bytes.length + p.bytes.length) :
    pieceEnd r p.behind = pieceRefusal kaMax kaStopped u p := by
  have hv : u ++ p.bytes ≠ [] := List.append_ne_nil_of_right_ne_nil u hp
  have hstatus : r.status = .readHeader ↔ endsInLine (u ++ p.bytes) = true := by
    rw [← lineStatus_readHeader hv, hsame]
    rfl
  have hinvalid : requestType r.bytes r.pos = .invalid ↔ fullLines (u ++ p.bytes) = [] ∧
      requestType (u ++ p.bytes) (u ++ p.bytes).length = .invalid := by
    rw [hpos, hsame]
    exact requestType_streamOf hends
  have hlogline : r.logline = acceptedLine (u ++ p.bytes) := congrArg Stream.logline hsame
  have hleft : r.bytes.drop r.bufferAt = leftOf kaMax kaStopped u p.bytes := by
    rw [hsame, hat, leftOf]
  rw [hsame] at hrestart
  have hgrown := hrestart
  rw [eaten_iff] at hrestart
  simp only [pieceEnd, pieceRefusal, hleft, hstatus, hlogline, ← hinvalid, ← hrestart]
  cases endsInLine (u ++ p.bytes) with
  | false => simp
  | true =>
    simp only [true_and, Bool.true_eq_false, if_false]
    by_cases hinv : requestType r.bytes r.pos = .invalid
    · have hnone : acceptedLine (u ++ p.bytes) = none := by
        rw [acceptedLine, (hinvalid.mp hinv).1]
        rfl
      rw [if_pos hinv, if_pos hinv, hnone]
      rfl
    rw [if_neg hinv, if_neg hinv]
    by_cases heaten : r.restart = true
    · rw [if_pos heaten, if_pos heaten]
    rw [if_neg heaten, if_neg heaten]
    -- nothing of the piece is gone, so it is not empty
    have hne : leftOf kaMax kaStopped u p.bytes ≠ [] := by
      have hpos := List.length_pos_iff.mpr hp
      rw [hgrown] at heaten
      rw [leftOf, ne_eq, List.drop_eq_nil_iff]
      omega
    have hlen := strlenBuffer_pos hne p.behind
    have hsize : 0 < clientStreamSize := by decide
    by_cases hzero : (leftOf kaMax kaStopped u p.bytes).head? = some 0
    · have hno : ¬ 0 < strlenBuffer (leftOf kaMax kaStopped u p.bytes) p.behind := fun h =>
        hlen.mp h hzero
      rw [if_pos hzero, if_neg (by omega), if_neg hno]
    · rw [if_neg hzero, if_pos (hlen.mpr hzero)]

/-- The pieces give what the scan gives, unless one of them is refused. -/
theorem readHeader_scans {kaMax : Nat} {kaStopped : Bool} {u : Bytes} {r : Reader}
    {ps : List Piece} {e : Ended} {unread : Bytes}
    (hopen : headerEnds u = false) (hsame : r.toStream = streamOf kaMax kaStopped u)
    (hline : LineOk r.toStream) (hpos : r.pos = r.bytes.length)
    (hpieces : ∀ p ∈ ps, p.bytes ≠ [])
    (hroom : (ps.flatMap Piece.bytes).length ≤ clientStreamSize)
    (hscan : feed (scanStep kaMax) r.toStream (ps.flatMap Piece.bytes) = .ended e unread) :
    readHeader kaMax r ps =
      match firstRefusal kaMax kaStopped u ps with
      | some page => .refused page
      | none => e.outcome unread := by
  induction ps generalizing r u with
  | nil => cases hscan
  | cons p ps ih =>
    rw [List.flatMap_cons] at hscan hroom
    rw [List.length_append] at hroom
    have hp := hpieces p List.mem_cons_self
    rw [readHeader, if_neg hp, firstRefusal]
    have hfeed : feed (scanStep kaMax) (newReader kaStopped).toStream (u ++ p.bytes) =
        feed (scanStep kaMax) r.toStream p.bytes := by
      rcases feed_streamOf kaMax kaStopped u with ⟨-, hu⟩ | ⟨hends, -⟩
      · rw [feed_append_more hu, hsame]
      · rw [hopen] at hends
        cases hends
    rcases piece_scans hline hpos hroom ⟨e, unread, hscan⟩ with
      ⟨e', unread', hs, ht⟩ | ⟨r', hs, ht, hline', hpos', hat, hrestart⟩
    · rw [hs]
      have hall := feed_append_ended ht (ps.flatMap Piece.bytes)
      rw [hscan] at hall
      cases hall
      rcases feed_streamOf kaMax kaStopped (u ++ p.bytes) with ⟨-, hmore⟩ | ⟨hends, -⟩
      · rw [hfeed, ht] at hmore
        cases hmore
      · rw [if_pos hends]
    · rw [hs]
      rcases feed_streamOf kaMax kaStopped (u ++ p.bytes) with ⟨hopen', hmore⟩ | ⟨-, _, _, hended, -⟩
      swap
      · rw [hfeed, ht] at hended
        cases hended
      rw [hfeed, ht] at hmore
      have hsame' : r'.toStream = streamOf kaMax kaStopped (u ++ p.bytes) := Fed.more.inj hmore
      have hstart : r.bytes.length = (streamOf kaMax kaStopped u).bytes.length := by rw [hsame]
      rw [hstart] at hat hrestart
      rw [hopen', if_neg Bool.false_ne_true]
      dsimp only
      rw [pieceEnd_eq hopen' hp hsame' hpos' hat hrestart]
      cases pieceRefusal kaMax kaStopped u p with
      | some page => rfl
      | none =>
        rw [feed_append_more ht] at hscan
        exact ih hopen' hsame' hline' hpos' (fun q hq => hpieces q (List.mem_cons_of_mem p hq))
          (by omega) hscan

/-- No piece is refused, but as the request line is. -/
def RefusedAtMost (kaMax : Nat) (kaStopped : Bool) (w : Bytes) (ps : List Piece) : Prop :=
  ∀ page, firstRefusal kaMax kaStopped [] ps = some page → lineRefusal w = some page

/-- Two ways of cutting a complete header come to the same when the first pieces that are refused
are answered alike, or both ways are refused at most as the request line is. -/
theorem pieces_agree_iff {kaMax : Nat} {kaStopped : Bool} {w : Bytes} {ps qs : List Piece}
    (hw : headerEnds w = true) (hsize : w.length ≤ clientStreamSize)
    (hps : ps.flatMap Piece.bytes = w) (hqs : qs.flatMap Piece.bytes = w)
    (hpne : ∀ p ∈ ps, p.bytes ≠ []) (hqne : ∀ q ∈ qs, q.bytes ≠ []) :
    readHeader kaMax (newReader kaStopped) ps = readHeader kaMax (newReader kaStopped) qs ↔
      firstRefusal kaMax kaStopped [] ps = firstRefusal kaMax kaStopped [] qs ∨
        (RefusedAtMost kaMax kaStopped w ps ∧ RefusedAtMost kaMax kaStopped w qs) := by
  obtain ⟨e, unread, hscan, hpage⟩ : ∃ e unread,
      feed (scanStep kaMax) (newReader kaStopped).toStream w = .ended e unread ∧
        ∀ page, e = .refused page ↔ lineRefusal w = some page := by
    rcases feed_streamOf kaMax kaStopped w with ⟨hopen, -⟩ | ⟨-, hended⟩
    · rw [hw] at hopen
      cases hopen
    · exact hended
  have hrun : ∀ cs : List Piece, cs.flatMap Piece.bytes = w → (∀ c ∈ cs, c.bytes ≠ []) →
      readHeader kaMax (newReader kaStopped) cs =
        match firstRefusal kaMax kaStopped [] cs with
        | some page => .refused page
        | none => e.outcome unread := by
    intro cs hcs hne
    refine readHeader_scans rfl rfl (by rintro ⟨⟩) rfl hne (hcs ▸ hsize) ?_
    rw [hcs]
    exact hscan
  have houtcome : ∀ page, e.outcome unread = .refused page ↔ lineRefusal w = some page := by
    intro page
    rw [← hpage]
    cases e with
    | refused page' => simp [Ended.outcome]
    | headerEnd line values => simp [Ended.outcome]
  rw [hrun ps hps hpne, hrun qs hqs hqne, RefusedAtMost, RefusedAtMost]
  cases firstRefusal kaMax kaStopped [] ps with
  | none =>
    cases firstRefusal kaMax kaStopped [] qs with
    | none => simp
    | some page => simp [houtcome]
  | some page =>
    cases firstRefusal kaMax kaStopped [] qs with
    | none => simp [← houtcome, eq_comm]
    | some page' =>
      constructor
      · intro h
        cases h
        exact Or.inl rfl
      · rintro (h | ⟨hp, hq⟩)
        · cases h
          rfl
        · exact congrArg Outcome.refused (Option.some.inj ((hp page rfl).symm.trans (hq page' rfl)))

def getLine : Bytes := ascii "GET /a HTTP/1.0\r\n"
def hostLine : Bytes := ascii "Host: b\r\n\r\n"

/-- Cut in front of a line feed, and inside a line of a piece that has another line eaten. -/
theorem pieces_agree_iff_lines :
    readHeader 0 (newReader false) [⟨ascii "GET /a HTTP/1.0\r", 0⟩, ⟨ascii "\nX-A: c\r\nHo", 0⟩,
        ⟨ascii "st: b\r\n\r\n", 0⟩] =
      readHeader 0 (newReader false) [⟨getLine ++ ascii "X-A: c\r\n" ++ hostLine, 0⟩] :=
  (pieces_agree_iff (by decide) (by decide) rfl (by decide) (by decide) (by decide)).mpr
    (Or.inl (by decide))

/-- Cut inside the first line, the request is malformed. -/
theorem cut_line_refused :
    ¬ ∀ (kaMax : Nat) (kaStopped : Bool) (w : Bytes) (ps qs : List Piece),
      headerEnds w = true → w.length ≤ clientStreamSize →
      ps.flatMap Piece.bytes = w → qs.flatMap Piece.bytes = w →
      (∀ p ∈ ps, p.bytes ≠ []) → (∀ q ∈ qs, q.bytes ≠ []) →
      readHeader kaMax (newReader kaStopped) ps = readHeader kaMax (newReader kaStopped) qs := by
  intro hclaim
  have hsame := hclaim 0 false (getLine ++ hostLine)
    [⟨getLine.take 8, 0⟩, ⟨getLine.drop 8 ++ hostLine, 0⟩]
    [⟨getLine ++ hostLine, 0⟩] (by decide) (by decide) rfl rfl (by decide) (by decide)
  exact absurd hsame (by decide)

end HeaderPieces
