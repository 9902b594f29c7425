import BoaGateway.CsrfWeaving

/-!
# The tokens in a response that is sent in parts

A response is written bit by bit and flushed in between, and the socket takes all, a part or
nothing of what is there. What has been sent is to be the text with the hidden input in front of
each end of a form. Which part of the buffer a flush has still to go over is guessed from three
positions, and the guess is right as long as nothing is written behind a form that is held back,
the next text is not as long as the last one was, and no end of a form is written in two parts
with a flush in between.
-/

namespace CsrfRuns

open ByteBlocks Texts TranslateUri CsrfToken CsrfWeaving

inductive Op where
  | boaWrite (text : Bytes)
  | flush (token : Token) (now : Int) (outcome : Outcome)
  /-- The flush of another request, which shares `waitsec` and `lasttime`. -/
  | others (waitsec lasttime : Int)

/-- A request with the account of its run: the text that was written, how many bytes at the head
of the buffer flushes have dealt with, and the tokens of the passes. -/
structure Run where
  conn : Conn
  text : Bytes
  looked : Nat
  tokens : List Token

def start (waitsec lasttime : Int) : Run := ⟨newRequest waitsec lasttime, [], 0, []⟩

/-- All of the buffer is dealt with once there was a pass or a part of it has been sent. -/
def lookedAfter (r : Run) (c : Conn) : Nat :=
  if c.buffer = [] then 0
  else if (passStart r.conn).isSome ∨ c.bufferStart ≠ 0 then c.buffer.length
  else r.looked

def step (r : Run) : Op → Option Run
  | .boaWrite text => (boaWrite text r.conn).map fun c => { r with conn := c, text := r.text ++ text }
  | .flush token now outcome =>
    (reqFlush token now outcome r.conn).map fun c =>
      { conn := c
        text := r.text
        looked := lookedAfter r c
        tokens := if (passStart r.conn).isSome then r.tokens ++ [token] else r.tokens }
  | .others waitsec lasttime =>
    some { r with conn := { r.conn with waitsec := waitsec, lasttime := lasttime } }

/-- What can be reached when each step is taken where it is allowed. -/
inductive Reach (ok : Run → Op → Prop) : Run → Prop where
  | start (waitsec lasttime : Int) : Reach ok (start waitsec lasttime)
  | step {r r' : Run} {op : Op} : Reach ok r → ok r op → step r op = some r' → Reach ok r'

/-- What has been sent is the beginning of the response, it is the response when nothing is left
to be sent, and no step goes beyond the buffer. -/
structure Right (r : Run) : Prop where
  begun : ∃ t rest n, Woven (t :: r.tokens) (marks r.text) (r.conn.sent ++ rest) n
  complete : r.conn.buffer = [] → Woven r.tokens (marks r.text) r.conn.sent r.tokens.length
  within : ∀ op, (step r op).isSome

/-- What no flush has dealt with. -/
def Run.fresh (r : Run) : Bytes := r.conn.buffer.drop r.looked

/-- The text in front of that. -/
def Run.seen (r : Run) : Bytes := r.text.take (r.text.length - r.fresh.length)

/-- The time for the `write` is used up to the second. -/
def TimesOut (now : Int) (c : Conn) : Prop := c.waitsec ≠ 0 ∧ c.waitsec = now - c.lasttime

instance (now : Int) (c : Conn) : Decidable (TimesOut now c) :=
  inferInstanceAs (Decidable (c.waitsec ≠ 0 ∧ c.waitsec = now - c.lasttime))

/-- A flush that sends something without a pass leaves no form out, one that is blocked has time
left, and none fails. -/
def FineSend (r : Run) (now : Int) : Outcome → Prop
  | .wrote count => count ≠ 0 → passStart r.conn = none → ¬ Tagged r.fresh
  | .blocked => ¬ TimesOut now r.conn
  | .failed => False

/-- The text fits into the array of `boaWrite` and does not complete a form that was passed; a
pass does not come over a form again. -/
def Fine (r : Run) : Op → Prop
  | .boaWrite text => text.length < 8192 ∧ (0 : UInt8) ∉ text ∧ ¬ Split r.seen (r.fresh ++ text)
  | .flush _ now outcome =>
    FineSend r now outcome ∧
      ∀ e ∈ passStart r.conn, ¬ Tagged ((r.conn.buffer.take r.looked).drop e)
  | .others _ _ => True

instance (r : Run) (now : Int) (outcome : Outcome) : Decidable (FineSend r now outcome) :=
  match outcome with
  | .wrote count =>
    inferInstanceAs (Decidable (count ≠ 0 → passStart r.conn = none → ¬ Tagged r.fresh))
  | .blocked => inferInstanceAs (Decidable (¬ TimesOut now r.conn))
  | .failed => inferInstanceAs (Decidable False)

instance (r : Run) (op : Op) : Decidable (Fine r op) :=
  match op with
  | .boaWrite text =>
    inferInstanceAs (Decidable (text.length < 8192 ∧ (0 : UInt8) ∉ text ∧
      ¬ Split r.seen (r.fresh ++ text)))
  | .flush _ now outcome =>
    inferInstanceAs (Decidable (FineSend r now outcome ∧
      ∀ e ∈ passStart r.conn, ¬ Tagged ((r.conn.buffer.take r.looked).drop e)))
  | .others _ _ => inferInstanceAs (Decidable True)

/-- What flushes have dealt with: nothing, all that was held back when a pass was over, or all
that was there when a part of it was sent. -/
inductive Place (c : Conn) (looked : Nat) : Prop where
  | untouched (start : c.bufferStart = 0) (none : looked = 0)
  | held (start : c.bufferStart = 0) (passed : looked = c.csrfEnd) (within : looked ≤ c.buffer.length)
      (feed : ∃ l, c.buffer.take looked = l ++ [10])
  | partway (start : c.bufferStart < looked) (passed : looked = c.csrfEnd)
      (within : looked ≤ c.buffer.length) (sending : c.bufferStart ≠ 0)

/-- The text before what is fresh is woven into what was sent and what the buffer still holds of
it, and no tag lies across. -/
structure Inv (r : Run) : Prop where
  bounded : Bounded r.conn
  clean : (0 : UInt8) ∉ r.conn.buffer
  place : Place r.conn r.looked
  split : ∃ seen, r.text = seen ++ r.fresh ∧ ¬ Split seen r.fresh ∧
    Woven r.tokens (marks seen)
      (r.conn.sent ++ (r.conn.buffer.take r.looked).drop r.conn.bufferStart) r.tokens.length

theorem Place.within_le {c : Conn} {looked : Nat} (h : Place c looked) :
    looked ≤ c.buffer.length := by
  cases h with
  | untouched _ hnone => omega
  | held _ _ hwithin _ => exact hwithin
  | partway _ _ hwithin _ => exact hwithin

theorem start_inv (waitsec lasttime : Int) : Inv (start waitsec lasttime) where
  bounded := ⟨le_rfl, Nat.zero_le _, fun hzero => absurd rfl hzero⟩
  clean := List.not_mem_nil
  place := .untouched rfl rfl
  split := ⟨[], rfl, not_split_nil [], .nil⟩

variable {r r' : Run}

theorem seen_eq {seen : Bytes} (h : r.text = seen ++ r.fresh) : r.seen = seen := by
  rw [Run.seen, h, List.length_append, Nat.add_sub_cancel, List.take_left]

theorem write_inv (h : Inv r) {text : Bytes} (hf : Fine r (.boaWrite text))
    (hs : step r (.boaWrite text) = some r') : Inv r' := by
  obtain ⟨hlen, hclean, hsplit⟩ := hf
  obtain ⟨seen, htext, -, hwoven⟩ := h.split
  obtain ⟨m, hm, hroom, heq⟩ := boaWrite_eq h.bounded text
  have hcstr : cstr (text.take 8191) = text := by
    rw [List.take_of_length_le (by omega), cstr_eq_self hclean]
  obtain ⟨c', hc', hbounded⟩ := h.bounded.write text
  rw [heq, hcstr, Option.some_inj] at hc'
  rw [step, heq, hcstr, Option.map_some, Option.some_inj] at hs
  have hwithin := h.place.within_le
  have htake : (r.conn.buffer ++ text).take r.looked = r.conn.buffer.take r.looked :=
    List.take_append_of_le_length hwithin
  have hfresh : r'.fresh = r.fresh ++ text := by
    rw [← hs]
    exact List.drop_append_of_le_length hwithin
  rw [seen_eq htext] at hsplit
  subst hs
  refine ⟨hc' ▸ hbounded, ?_, ?_, seen, ?_, hfresh ▸ hsplit, ?_⟩
  · exact fun hz => (List.mem_append.mp hz).elim h.clean hclean
  · have hle : r.conn.buffer.length ≤ (r.conn.buffer ++ text).length := by
      rw [List.length_append]
      exact Nat.le_add_right _ _
    cases h.place with
    | untouched hstart hnone => exact .untouched hstart hnone
    | held hstart hpassed hin hfeed => exact .held hstart hpassed (hin.trans hle) (htake ▸ hfeed)
    | partway hstart hpassed hin hsending => exact .partway hstart hpassed (hin.trans hle) hsending
  · rw [hfresh, ← List.append_assoc, ← htext]
  · dsimp only
    rw [htake]
    exact hwoven

/-- A write takes a part or all of what is left. -/
inductive Moved (c c' : Conn) : Prop where
  | part (buffer : c'.buffer = c.buffer) (later : c.bufferStart < c'.bufferStart)
      (before : c'.bufferStart < c.buffer.length) (passed : c'.csrfEnd = c.csrfEnd)
      (sent : c'.sent ++ c.buffer.drop c'.bufferStart = c.sent ++ c.buffer.drop c.bufferStart)
  | all (buffer : c'.buffer = []) (start : c'.bufferStart = 0)
      (sent : c'.sent = c.sent ++ c.buffer.drop c.bufferStart)

theorem timesOut_iff {now : Int} {c : Conn} :
    (passWait now (startWait now c)).waitsec = 0 ↔ TimesOut now c := by
  rw [passWait, startWait, TimesOut]
  split
  · simp_all
  · dsimp only
    omega

theorem sendPending_sent {c : Conn} {now : Int} {outcome : Outcome}
    (hlt : c.bufferStart < c.buffer.length) (hblocked : outcome = .blocked → ¬ TimesOut now c)
    (hfailed : outcome ≠ .failed) :
    Kept c (sendPending now outcome c) ∨
      (∃ count, outcome = .wrote count ∧ count ≠ 0) ∧ Moved c (sendPending now outcome c) := by
  have hwait := startWait_kept now c
  cases outcome with
  | failed => exact absurd rfl hfailed
  | blocked =>
    have hleft : (passWait now (startWait now c)).waitsec ≠ 0 :=
      timesOut_iff.not.mpr (hblocked rfl)
    rw [sendPending, if_neg hleft]
    exact Or.inl ⟨hwait.buffer, hwait.start, hwait.passed, hwait.sent⟩
  | wrote count =>
    rw [sendPending, finish]
    simp only [hwait.buffer, hwait.start, hwait.sent, hwait.passed]
    by_cases hzero : count = 0
    · rw [if_neg (by omega), hzero]
      exact Or.inl ⟨rfl, by simp, rfl, by simp⟩
    · refine Or.inr ⟨⟨count, rfl, hzero⟩, ?_⟩
      split
      · refine .all rfl rfl ?_
        rw [clear, List.take_of_length_le]
        rw [List.length_drop]
        omega
      · refine .part rfl (by dsimp only; omega) (by dsimp only; omega) rfl ?_
        dsimp only
        rw [List.append_assoc, ← List.drop_drop, List.take_append_drop]

/-- Where all of the buffer has been dealt with, nothing is fresh. -/
theorem dealt_inv {c : Conn} {text : Bytes} {tokens : List Token} (hbounded : Bounded c)
    (hclean : (0 : UInt8) ∉ c.buffer) (hplace : Place c c.buffer.length)
    (hwoven : Woven tokens (marks text) (c.sent ++ c.buffer.drop c.bufferStart) tokens.length) :
    Inv ⟨c, text, c.buffer.length, tokens⟩ := by
  have hfresh : (⟨c, text, c.buffer.length, tokens⟩ : Run).fresh = [] := List.drop_length
  refine ⟨hbounded, hclean, hplace, text, ?_, ?_, ?_⟩
  · rw [hfresh, List.append_nil]
  · rw [hfresh]
    exact not_split_nil text
  · dsimp only
    rwa [List.take_length]

/-- Once something of the buffer is sent, all of it is dealt with. -/
theorem moved_inv {c c' : Conn} {text : Bytes} {tokens : List Token} (hbounded : Bounded c')
    (hclean : (0 : UInt8) ∉ c.buffer) (hend : c.csrfEnd = c.buffer.length)
    (hwoven : Woven tokens (marks text) (c.sent ++ c.buffer.drop c.bufferStart) tokens.length)
    (hmoved : Moved c c') : Inv ⟨c', text, c'.buffer.length, tokens⟩ := by
  cases hmoved with
  | part hbuffer hlater hbefore hpassed hsame =>
    refine dealt_inv hbounded (hbuffer ▸ hclean) ?_ ?_
    · exact .partway (by rw [hbuffer]; exact hbefore) (by rw [hbuffer, hpassed]; exact hend.symm)
        le_rfl (by omega)
    · rw [hbuffer, hsame]
      exact hwoven
  | all hbuffer hstart hsame =>
    refine dealt_inv hbounded (by rw [hbuffer]; exact List.not_mem_nil) ?_ ?_
    · exact .untouched hstart (by rw [hbuffer]; rfl)
    · rw [hbuffer, hstart, hsame, List.drop_nil, List.append_nil]
      exact hwoven

theorem Place.kept {c c' : Conn} {looked : Nat} (hplace : Place c looked) (h : Kept c c') :
    Place c' looked := by
  cases hplace with
  | untouched hzero hnone => exact .untouched (h.start.trans hzero) hnone
  | held hzero hpassed hin hfeed =>
    exact .held (h.start.trans hzero) (hpassed.trans h.passed.symm) (h.buffer ▸ hin)
      (h.buffer ▸ hfeed)
  | partway hlt hpassed hin hsending =>
    exact .partway (h.start ▸ hlt) (hpassed.trans h.passed.symm) (h.buffer ▸ hin)
      (h.start ▸ hsending)

/-- Where nothing is sent and no pass is made, all stays as it is. -/
theorem kept_inv (h : Inv r) {c : Conn} (hbounded : Bounded c) (hkept : Kept r.conn c) :
    Inv { r with conn := c } := by
  obtain ⟨seen, htext, hsplit, hwoven⟩ := h.split
  have hfresh : ({ r with conn := c } : Run).fresh = r.fresh := by
    rw [Run.fresh, Run.fresh, hkept.buffer]
  refine ⟨hbounded, hkept.buffer ▸ h.clean, h.place.kept hkept, seen, ?_, ?_, ?_⟩
  · rw [hfresh]
    exact htext
  · rw [hfresh]
    exact hsplit
  · dsimp only
    rw [hkept.buffer, hkept.start, hkept.sent]
    exact hwoven

/-- A pass begins at the latest where flushes have come to, and in front of that it comes over a
line feed last, if over anything. -/
theorem Place.pass {c : Conn} {looked e : Nat} (h : Place c looked) (he : passStart c = some e) :
    e ≤ looked ∧
      ((c.buffer.take looked).drop e = [] ∨ ∃ l, (c.buffer.take looked).drop e = l ++ [10]) := by
  have hcases := passStart_some he
  cases h with
  | untouched hzero hnone =>
    have hfirst : e = 0 := by omega
    rw [hfirst, hnone]
    exact ⟨le_rfl, Or.inl rfl⟩
  | held hzero hpassed hin hfeed =>
    have hfirst : e = 0 := by omega
    rw [hfirst]
    exact ⟨Nat.zero_le _, Or.inr hfeed⟩
  | partway hlt hpassed hin hsending =>
    have hlast : e = looked := by omega
    rw [hlast]
    refine ⟨le_rfl, Or.inl (List.drop_eq_nil_of_le ?_)⟩
    rw [List.length_take]
    omega

theorem Place.start_le {c : Conn} {looked : Nat} (h : Place c looked) : c.bufferStart ≤ looked := by
  cases h with
  | untouched hzero _ => omega
  | held hzero _ _ _ => omega
  | partway hlt _ _ _ => exact hlt.le

theorem Place.all_passed {c : Conn} {looked : Nat} (h : Place c looked) (hne : c.bufferStart ≠ 0)
    (hend : c.csrfEnd = c.buffer.length) : looked = c.buffer.length := by
  cases h with
  | untouched hzero _ => exact absurd hzero hne
  | held hzero _ _ _ => exact absurd hzero hne
  | partway _ hpassed _ _ => exact hpassed.trans hend

theorem Place.nonempty {c : Conn} {looked : Nat} (h : Place c looked) (he : passStart c = none) :
    c.bufferStart < c.buffer.length := by
  obtain ⟨hend, hne⟩ := passStart_none he
  cases h with
  | untouched hzero _ =>
    have hpos := hne hzero
    omega
  | held hzero _ _ _ =>
    have hpos := hne hzero
    omega
  | partway hlt _ hin _ => exact hlt.trans_le hin

theorem lookedAfter_passed {c : Conn} (h : (passStart r.conn).isSome ∨ c.bufferStart ≠ 0) :
    lookedAfter r c = c.buffer.length := by
  rw [lookedAfter, if_pos h]
  split
  · rename_i hempty
    rw [hempty]
    rfl
  · rfl

theorem lookedAfter_moved {c c' : Conn} (h : Moved c c') : lookedAfter r c' = c'.buffer.length := by
  cases h with
  | part _ hlater _ _ _ => exact lookedAfter_passed (Or.inr (by omega))
  | all hbuffer _ _ =>
    rw [lookedAfter, if_pos hbuffer, hbuffer]
    rfl

/-- The run after a flush that had bytes to send. -/
theorem flush_eq {token : Token} {now : Int} {outcome : Outcome} {c : Conn}
    (hs : step r (.flush token now outcome) = some r')
    (h : handleCSRFToken token r.conn = some c) (hlt : c.bufferStart < c.buffer.length) :
    r' =
      { conn := sendPending now outcome c
        text := r.text
        looked := lookedAfter r (sendPending now outcome c)
        tokens := if (passStart r.conn).isSome then r.tokens ++ [token] else r.tokens } := by
  rw [step, reqFlush_eq h hlt, Option.map_some, Option.some_inj] at hs
  exact hs.symm

/-- What a pass leaves in the buffer is dealt with, sent or not. -/
theorem passed_inv {c c' : Conn} {text : Bytes} {tokens : List Token} (hbounded : Bounded c')
    (hclean : (0 : UInt8) ∉ c.buffer) (hplace : Place c c.buffer.length)
    (hend : c.csrfEnd = c.buffer.length)
    (hwoven : Woven tokens (marks text) (c.sent ++ c.buffer.drop c.bufferStart) tokens.length)
    (h : Kept c c' ∨ Moved c c') : Inv ⟨c', text, c'.buffer.length, tokens⟩ := by
  rcases h with hkept | hmoved
  · have hplace' := hplace.kept hkept
    rw [← hkept.buffer] at hplace'
    refine dealt_inv hbounded (hkept.buffer ▸ hclean) hplace' ?_
    rw [hkept.buffer, hkept.start, hkept.sent]
    exact hwoven
  · exact moved_inv hbounded hclean hend hwoven hmoved

theorem FineSend.blocked {now : Int} {outcome : Outcome} (h : FineSend r now outcome) :
    outcome = .blocked → ¬ TimesOut now r.conn := by
  rintro rfl
  exact h

theorem FineSend.failed {now : Int} {outcome : Outcome} (h : FineSend r now outcome) :
    outcome ≠ .failed := by
  rintro rfl
  exact h

/-- What a pass makes of a request: its token is woven into what was fresh, and the rest of the
buffer is as it was. -/
structure Passed (r : Run) (token : Token) (c : Conn) : Prop where
  bounded : Bounded c
  handled : handleCSRFToken token r.conn = some c
  buffer : c.buffer = r.conn.buffer.take r.looked ++ fed token r.fresh
  passed : c.csrfEnd = c.buffer.length
  start : c.bufferStart = r.conn.bufferStart
  sent : c.sent = r.conn.sent
  waitsec : c.waitsec = r.conn.waitsec
  lasttime : c.lasttime = r.conn.lasttime

theorem passed_of_pass (h : Inv r) (token : Token) {e : Nat} (he : passStart r.conn = some e)
    (hagain : ¬ Tagged ((r.conn.buffer.take r.looked).drop e)) : ∃ c, Passed r token c := by
  obtain ⟨hle, hfeed⟩ := h.place.pass he
  obtain ⟨m, -, -, heq⟩ := handleCSRFToken_eq token h.bounded he
  rw [gone_eq hle h.place.within_le h.clean hagain hfeed] at heq
  obtain ⟨c, hc, hbounded, hend⟩ := h.bounded.handle token
  rw [heq, Option.some_inj] at hc
  subst hc
  exact ⟨_, hbounded, heq, rfl, hend, rfl, rfl, rfl, rfl⟩

theorem Passed.start_lt {token : Token} {c : Conn} (hp : Passed r token c) (h : Inv r) :
    c.bufferStart < c.buffer.length := by
  obtain ⟨l, hl⟩ := fed_ends token (clean_drop h.clean r.looked)
  have hfed : (fed token r.fresh).length = l.length + 1 := by
    rw [Run.fresh, hl, List.length_append, List.length_singleton]
  have hstart := h.place.start_le
  have hwithin := h.place.within_le
  rw [hp.buffer, hp.start, List.length_append, List.length_take_of_le hwithin, hfed]
  omega

theorem Passed.place {token : Token} {c : Conn} (hp : Passed r token c) (h : Inv r) :
    Place c c.buffer.length := by
  by_cases hzero : c.bufferStart = 0
  · obtain ⟨l, hl⟩ := fed_ends token (clean_drop h.clean r.looked)
    refine .held hzero hp.passed.symm le_rfl ⟨r.conn.buffer.take r.looked ++ l, ?_⟩
    rw [List.take_length, hp.buffer, Run.fresh, hl, List.append_assoc]
  · exact .partway (hp.start_lt h) hp.passed.symm le_rfl hzero

theorem Passed.woven {token : Token} {c : Conn} (hp : Passed r token c) (h : Inv r) :
    Woven (r.tokens ++ [token]) (marks r.text) (c.sent ++ c.buffer.drop c.bufferStart)
      (r.tokens ++ [token]).length := by
  obtain ⟨seen, htext, hsplit, hwoven⟩ := h.split
  have hmem : token ∈ r.tokens ++ [token] :=
    List.mem_append_right r.tokens (List.mem_singleton_self token)
  have hall := (hwoven.mono (List.subset_append_left r.tokens [token])).append
    (fed_woven (clean_drop h.clean r.looked) hmem)
  have hstart : r.conn.bufferStart ≤ (r.conn.buffer.take r.looked).length := by
    rw [List.length_take_of_le h.place.within_le]
    exact h.place.start_le
  rw [hp.buffer, hp.start, hp.sent, List.drop_append_of_le_length hstart, htext,
    marks_append hsplit, ← List.append_assoc, List.length_append]
  exact hall

theorem pass_inv (h : Inv r) {token : Token} {now : Int} {outcome : Outcome} {e : Nat}
    (he : passStart r.conn = some e) (hf : Fine r (.flush token now outcome))
    (hs : step r (.flush token now outcome) = some r') : Inv r' := by
  obtain ⟨hsend, hagain⟩ := hf
  obtain ⟨c, hp⟩ := passed_of_pass h token he (hagain e he)
  have hlt := hp.start_lt h
  have hclean : (0 : UInt8) ∉ c.buffer := by
    rw [hp.buffer, List.mem_append, not_or]
    exact ⟨fun hz => h.clean (List.mem_of_mem_take hz), fed_clean (clean_drop h.clean r.looked)⟩
  have hwait : outcome = .blocked → ¬ TimesOut now c := by
    rw [TimesOut, hp.waitsec, hp.lasttime]
    exact hsend.blocked
  rw [flush_eq hs hp.handled hlt, lookedAfter_passed (Or.inl (by rw [he]; rfl)),
    if_pos (by rw [he]; rfl)]
  exact passed_inv (hp.bounded.send hp.passed now outcome) hclean (hp.place h) hp.passed (hp.woven h)
    ((sendPending_sent hlt hwait hsend.failed).imp_right And.right)

theorem skip_inv (h : Inv r) {token : Token} {now : Int} {outcome : Outcome}
    (he : passStart r.conn = none) (hf : Fine r (.flush token now outcome))
    (hs : step r (.flush token now outcome) = some r') : Inv r' := by
  obtain ⟨hsend, -⟩ := hf
  have hc : handleCSRFToken token r.conn = some r.conn := by rw [handleCSRFToken, he]
  have hend := (passStart_none he).1
  have hlt := h.place.nonempty he
  have hbounded := h.bounded.send hend now outcome
  rw [flush_eq hs hc hlt, if_neg (by rw [he]; exact Bool.false_ne_true)]
  rcases sendPending_sent hlt hsend.blocked hsend.failed with hkept | ⟨⟨count, rfl, hcount⟩, hmoved⟩
  · have hlooked : lookedAfter r (sendPending now outcome r.conn) = r.looked := by
      rw [lookedAfter, hkept.buffer, if_neg (List.ne_nil_of_length_pos (by omega)), he, hkept.start]
      split
      · rename_i hsome
        have hne : r.conn.bufferStart ≠ 0 := hsome.resolve_left Bool.false_ne_true
        exact (h.place.all_passed hne hend).symm
      · rfl
    rw [hlooked]
    exact kept_inv h hbounded hkept
  · rw [lookedAfter_moved hmoved]
    refine moved_inv hbounded h.clean hend ?_ hmoved
    obtain ⟨seen, htext, hsplit, hwoven⟩ := h.split
    have hplain : ¬ Tagged r.fresh := hsend hcount he
    have hwithin := h.place.within_le
    have hstart := h.place.start_le
    have hback : r.conn.buffer.drop r.conn.bufferStart =
        (r.conn.buffer.take r.looked).drop r.conn.bufferStart ++ r.fresh := by
      rw [Run.fresh, ← List.drop_append_of_le_length (by rw [List.length_take]; omega),
        List.take_append_drop]
    rw [htext, marks_append hsplit, marks_untagged hplain, hback, ← List.append_assoc]
    exact hwoven.append (.plain r.fresh)

theorem step_inv (h : Inv r) {op : Op} (hf : Fine r op) (hs : step r op = some r') : Inv r' := by
  cases op with
  | boaWrite text => exact write_inv h hf hs
  | flush token now outcome =>
    cases he : passStart r.conn with
    | none => exact skip_inv h he hf hs
    | some e => exact pass_inv h he hf hs
  | others waitsec lasttime =>
    rw [step, Option.some_inj] at hs
    rw [← hs]
    exact kept_inv h ⟨h.bounded.size, h.bounded.fits, h.bounded.marked⟩ ⟨rfl, rfl, rfl, rfl⟩

theorem reach_inv (h : Reach Fine r) : Inv r := by
  induction h with
  | start waitsec lasttime => exact start_inv waitsec lasttime
  | step _ hf hs ih => exact step_inv ih hf hs

/-- Whatever the run is, no step goes beyond the buffer. -/
theorem step_bounded (h : Bounded r.conn) (op : Op) : ∃ r', step r op = some r' ∧ Bounded r'.conn := by
  cases op with
  | boaWrite text =>
    obtain ⟨c, hc, hbounded⟩ := h.write text
    exact ⟨_, by rw [step, hc, Option.map_some], hbounded⟩
  | flush token now outcome =>
    obtain ⟨c, hc, hbounded⟩ := h.flush token now outcome
    exact ⟨_, by rw [step, hc, Option.map_some], hbounded⟩
  | others waitsec lasttime => exact ⟨_, rfl, h.size, h.fits, h.marked⟩

theorem reach_bounded {ok : Run → Op → Prop} (h : Reach ok r) : Bounded r.conn := by
  induction h with
  | start waitsec lasttime => exact (start_inv waitsec lasttime).bounded
  | step _ _ hs ih =>
    obtain ⟨r₁, hr₁, hbounded⟩ := step_bounded ih _
    rw [hs, Option.some_inj] at hr₁
    exact hr₁ ▸ hbounded

/-- As long as each step is taken where the guess is right, what has been sent is the beginning
of the text with the tokens in its forms, and all of it when the buffer is empty. -/
theorem response_woven (h : Reach Fine r) : Right r := by
  have hinv := reach_inv h
  obtain ⟨seen, htext, hsplit, hwoven⟩ := hinv.split
  refine ⟨?_, ?_, ?_⟩
  · let t : Token := ⟨[], Nat.zero_le _, List.not_mem_nil⟩
    have hmem : t ∈ t :: r.tokens := List.mem_cons_self
    have hall := (hwoven.mono (List.subset_cons_self t r.tokens)).append
      (fed_woven (clean_drop hinv.clean r.looked) hmem)
    rw [List.append_assoc] at hall
    rw [htext, marks_append hsplit]
    exact ⟨t, _, _, hall⟩
  · intro hempty
    have hfresh : r.fresh = [] := by rw [Run.fresh, hempty, List.drop_nil]
    rw [hempty, List.take_nil, List.drop_nil, List.append_nil] at hwoven
    rw [htext, hfresh, List.append_nil]
    exact hwoven
  · intro op
    obtain ⟨r', hr', -⟩ := step_bounded hinv.bounded op
    rw [hr']
    rfl

theorem reach_next {ok : Run → Op → Prop} (h : Reach ok r) (op : Op) (hok : ok r op)
    (hsome : (step r op).isSome) : Reach ok ((step r op).get hsome) :=
  .step h hok (Option.some_get hsome).symm

/-- A form that is held back once and then sent in two parts. -/
theorem response_woven_parts :
    ∃ r, r.text = ascii "<form></Form>" ∧ r.conn.buffer = [] ∧ r.conn.sent.length = 65 ∧ Right r := by
  let t : Token := ⟨[], Nat.zero_le _, List.not_mem_nil⟩
  have h₁ := reach_next (.start 0 0 : Reach Fine _) (.boaWrite (ascii "<form></Form>"))
    (by decide +kernel) (by decide +kernel)
  have h₂ := reach_next h₁ (.flush t 0 .blocked) (by decide +kernel) (by decide +kernel)
  have h₃ := reach_next h₂ (.flush t 1 (.wrote 5)) (by decide +kernel) (by decide +kernel)
  have h₄ := reach_next h₃ (.flush t 2 (.wrote 60)) (by decide +kernel) (by decide +kernel)
  exact ⟨_, by decide +kernel, by decide +kernel, by decide +kernel, response_woven h₄⟩

/-- What the response is written and sent with: no write fails for good. -/
def Patterned (_ : Run) : Op → Prop
  | .flush _ _ .failed => False
  | _ => True

/-- A second text that is as long as the first one was with its line feed is not gone over. -/
theorem form_without_token : ¬ ∀ r, Reach Patterned r → Right r := by
  intro hclaim
  let t : Token := ⟨[], Nat.zero_le _, List.not_mem_nil⟩
  have h₁ := reach_next (.start 0 0 : Reach Patterned _) (.boaWrite (ascii "<form>")) trivial
    (by decide +kernel)
  have h₂ := reach_next h₁ (.flush t 0 (.wrote 7)) trivial (by decide +kernel)
  have h₃ := reach_next h₂ (.boaWrite (ascii "</form>")) trivial (by decide +kernel)
  have h₄ := reach_next h₃ (.flush t 0 (.wrote 7)) trivial (by decide +kernel)
  have hwoven := (hclaim _ h₄).complete (by decide +kernel)
  have hlen := hwoven.length_eq 0 (by decide +kernel)
  exact absurd hlen (by decide +kernel)

end CsrfRuns
