import BoaGateway.FileTransfer
import BoaGateway.Occurrences
import BoaGateway.TranslateUri

/-!
# The output of a CGI program

`read_from_pipe` collects the output of the program in the upper half of the buffer until the
buffer is full or the output is at its end; then `process_cgi_header` looks at it. From then on the
two functions of the pipe take turns, whatever the pipe and the socket take or give. The header of
the response is in the lower half of the buffer and is flushed first. The build is one without
`CONFIG_USER_BOA_CSRF`, in which `req_flush` adds nothing to the output of a program, and without
`USER_WEB_WIZARD`.
-/

namespace CgiRelay

open ByteBlocks CsrfToken Delivery FileTransfer Occurrences Texts TranslateUri

def bufferSize : Nat := clientStreamSize

/-- Where the output begins in the buffer while its header is not processed. -/
def upperHalf : Nat := bufferSize / 2

/-- What the responses to a request depend on. -/
structure CgiRequest where
  simple : Bool
  head : Bool
  /-- `send_r_request_ok`, for the text before the empty line. -/
  requestOk : Bytes → Bytes
  /-- `send_r_error` -/
  error : Bytes
  /-- `send_redirect_temp` -/
  redirectTemp : Bytes → Bytes
  /-- How many bytes behind `Location: ` are below `data_mem + MAX_HEADER_LENGTH`. -/
  reach : Nat

inductive CgiStatus where
  | read
  | write
  | close
  deriving DecidableEq

/-- A request whose program still has some output. The data are the bytes from `header_line` to
`header_end`, with so much room behind them; `writing` stands for the status `PIPE_WRITE`. -/
structure Relay where
  conn : Conn
  output : Bytes
  data : Bytes
  room : Nat
  writing : Bool
  cgi : CgiStatus
  freed : Bool
  deriving DecidableEq

/-- What comes of a `read` from the pipe: up to so many bytes and one, or the end of the output;
it would block, or it fails for good. -/
inductive Input where
  | got (more : Nat)
  | blocked
  | failed
  deriving DecidableEq

/-- A round of the main loop for the request. -/
structure Round extends FileTransfer.Event where
  input : Input

/-- The end of `init_cgi` for a CGI program. -/
def initCgi (conn : Conn) (output : Bytes) : Relay :=
  { conn, output, data := [], room := conn.maxBufferSize - upperHalf, writing := false, cgi := .read
    freed := false }

def crlf2 : Bytes := ascii "\r\n\r\n"

def lf2 : Bytes := ascii "\n\n"

/-- What stands before the empty line, and its length. -/
def endOfHeader (s : Bytes) : Option (Bytes × Nat) :=
  match cutFirst crlf2 s with
  | some (before, _) => some (before, 4)
  | none => (cutFirst lf2 s).map fun cut => (cut.1, 2)

/-- `strncasecmp` with the whole length of the word. -/
def hasWord (word s : Bytes) : Bool := (word.map toLower).isPrefixOf (s.map toLower)

/-- What comes of the header: the response that is put in front, what is left of the data, whether
the response is flushed, and the result. -/
structure Processed where
  response : Bytes
  data : Bytes
  flush : Bool
  result : Int
  deriving DecidableEq

/-- The end of `process_cgi_header`. -/
def processed (q : CgiRequest) (response data : Bytes) : Processed :=
  { response, data, flush := q.head, result := if q.head then 0 else 1 }

/-- `process_cgi_header` -/
def processCgiHeader (q : CgiRequest) (data : Bytes) : Processed :=
  let buf := cstr data
  match endOfHeader buf with
  | none => { response := q.error, data, flush := true, result := 0 }
  | some (before, eohLen) =>
    if q.simple then
      let skip := if buf[before.length + 1]? = some 13 then 2 else 1
      { response := [], data := data.drop (before.length + skip), flush := false, result := 1 }
    else if hasWord (ascii "Status: ") buf then
      processed q [] (ascii "HTTP/1.0 " ++ data.drop 8)
    else if hasWord (ascii "Location: ") buf then
      let url := ((buf.drop 10).take q.reach).takeWhile fun b => b ≠ 10 ∧ b ≠ 13
      let data := data.set (10 + url.length) 0
      { response := if url.head? = some 47 then q.error else q.redirectTemp url
        data, flush := true, result := 0 }
    else processed q (q.requestOk before) (data.drop (before.length + eohLen))

/-- The response goes to the buffer of the connection, which is empty; `none` if it reaches the
data in the upper half. -/
def respond (e : Round) (p : Processed) (r : Relay) : Option (Relay × Int) :=
  if upperHalf < p.response.length then none
  else
    let r := { r with
      conn := { r.conn with buffer := p.response }, data := p.data, writing := true, cgi := .write }
    if p.flush then
      (reqFlush e.now e.outcome (e.arrive r.conn)).map fun conn => ({ r with conn }, p.result)
    else some (r, p.result)

/-- `read_from_pipe` -/
def readFromPipe (q : CgiRequest) (e : Round) (r : Relay) : Option (Relay × Int) :=
  if r.room = 0 then
    if r.cgi = .read then respond e (processCgiHeader q r.data) r
    else some ({ r with writing := true }, 1)
  else
    match e.input with
    | .blocked => some (r, -1)
    | .failed => some (r, 0)
    | .got more =>
      if r.output = [] then
        if r.cgi = .read then respond e (processCgiHeader q r.data) r
        else some ({ r with writing := true, cgi := .close }, 1)
      else
        let read := min (min (more + 1) r.room) r.output.length
        some ({ r with
          output := r.output.drop read, data := r.data ++ r.output.take read
          room := r.room - read }, 1)

/-- `write_from_pipe` -/
def writeFromPipe (e : Round) (r : Relay) : Relay × Int :=
  if r.data = [] then
    if r.cgi = .close then (r, 0)
    else ({ r with writing := false, room := r.conn.maxBufferSize }, 1)
  else
    match e.outcome with
    | .blocked => (r, -1)
    | .failed => (r, 0)
    | .wrote count =>
      let written := min count r.data.length
      ({ r with
        conn := { r.conn with sent := r.conn.sent ++ r.data.take written }
        data := r.data.drop written }, 1)

/-- The handler of a round of `process_requests`, with `retval`. -/
def serve (q : CgiRequest) (e : Round) (r : Relay) : Option (Relay × Int) :=
  if r.conn.buffer.length ≠ 0 then
    (reqFlush e.now e.outcome (e.arrive r.conn)).map fun conn => ({ r with conn }, 1)
  else if r.writing then some (writeFromPipe e r)
  else readFromPipe q e r

/-- `free_request`, when the result is 0. -/
def settle (s : Relay × Int) : Relay :=
  if s.2 = 0 ∧ s.1.conn.buffer.length = 0 then { s.1 with freed := true } else s.1

def step (q : CgiRequest) (e : Round) (r : Relay) : Option Relay :=
  if r.freed = true then some r else (serve q e r).map settle

def run (q : CgiRequest) : List Round → Relay → Option Relay
  | [], r => some r
  | e :: es, r => (step q e r).bind (run q es)

/-- What the header is looked for in. -/
def firstPart (conn : Conn) (output : Bytes) : Bytes := output.take (conn.maxBufferSize - upperHalf)

/-- The response of the whole output, whatever parts it comes in. -/
def answer (q : CgiRequest) (conn : Conn) (output : Bytes) : Processed :=
  processCgiHeader q (firstPart conn output)

/-- What follows the response. -/
def behind (q : CgiRequest) (conn : Conn) (output : Bytes) : Bytes :=
  (answer q conn output).data ++ output.drop (conn.maxBufferSize - upperHalf)

/-- What is still to be sent. -/
def pending (r : Relay) : Bytes := held r.conn ++ (r.data ++ r.output)

/-- The round processes the header. -/
def processes (e : Round) (r : Relay) : Bool :=
  r.cgi = .read &&
    (r.room = 0 ||
      match e.input with
      | .got _ => r.output = []
      | _ => false)

/-- The connection that is flushed in a round. -/
def flushes (q : CgiRequest) (e : Round) (r : Relay) : Option Conn :=
  if r.conn.buffer.length ≠ 0 then some r.conn
  else if !r.writing && processes e r && (processCgiHeader q r.data).flush then
    some { r.conn with buffer := (processCgiHeader q r.data).response }
  else none

/-- A flush empties the buffer of the connection. -/
def drops (q : CgiRequest) (e : Round) (r : Relay) : Bool := (flushes q e r).any (empties e.toEvent)

/-- The pipe or the socket fails in a round that reads or writes the data. -/
def fails (e : Round) (r : Relay) : Bool :=
  r.conn.buffer.length = 0 &&
    if r.writing then r.data ≠ [] && e.outcome = .failed else r.room ≠ 0 && e.input = .failed

/-- Whether a round satisfies a condition while the request is there, as a number. -/
def count (p : Round → Relay → Bool) (e : Round) (r : Relay) : Nat :=
  if r.freed = false ∧ p e r = true then 1 else 0

/-- How many rounds do. -/
def times (q : CgiRequest) (p : Round → Relay → Bool) : List Round → Relay → Nat
  | [], _ => 0
  | e :: es, r => count p e r + ((step q e r).map (times q p es)).getD 0

/-- The output is collected for its header. -/
structure Collects (conn : Conn) (output : Bytes) (lost failed : Nat) (r : Relay) : Prop where
  same : r.conn = conn
  cgi : r.cgi = .read
  reading : r.writing = false
  whole : r.data ++ r.output = output
  room : r.data.length + r.room = conn.maxBufferSize - upperHalf
  nothing : lost = 0
  freed : r.freed = true → failed ≠ 0

/-- The response and what follows it are sent. -/
structure Sends (p : Processed) (rest : Bytes) (lost failed : Nat) (r : Relay) : Prop where
  cgi : r.cgi ≠ .read
  account : Account (p.response ++ rest) (r.data ++ r.output) lost r.conn
  closed : r.cgi = .close → r.output = []
  freed : r.freed = true → failed = 0 → pending r = [] ∨ p.result = 0 ∧ pending r = rest

def Kept (q : CgiRequest) (conn : Conn) (output : Bytes) (lost failed : Nat) (r : Relay) : Prop :=
  Collects conn output lost failed r ∨
    Sends (answer q conn output) (behind q conn output) lost failed r

variable {q : CgiRequest} {conn : Conn} {output : Bytes} {lost failed : Nat} {r r' : Relay}
  {e : Round}

/-- The whole buffer or the whole output is what the header is looked for in. -/
theorem Collects.firstPart_eq (h : Collects conn output lost failed r)
    (hall : r.room = 0 ∨ r.output = []) :
    r.data = firstPart conn output ∧
      r.output = output.drop (conn.maxBufferSize - upperHalf) := by
  have hwhole := h.whole
  have hroom := h.room
  rcases hall with hzero | hend
  · have hlen : r.data.length = conn.maxBufferSize - upperHalf := by omega
    rw [firstPart, ← hwhole, ← hlen, List.take_left, List.drop_left]
    exact ⟨rfl, rfl⟩
  · rw [hend, List.append_nil] at hwhole
    have hlen : output.length ≤ conn.maxBufferSize - upperHalf := by
      rw [← hwhole]
      omega
    rw [firstPart, List.take_of_length_le hlen, List.drop_eq_nil_of_le hlen]
    exact ⟨hwhole, hend⟩

/-- A response that is flushed at once is the end of the request. -/
def Processed.Last (p : Processed) : Prop := p.result = if p.flush = true then 0 else 1

theorem processCgiHeader_last (q : CgiRequest) (data : Bytes) : (processCgiHeader q data).Last := by
  dsimp only [processCgiHeader]
  split
  · rfl
  split
  · rfl
  split
  · rfl
  split
  · rfl
  · rfl

/-- The connection is empty and ready for the response. -/
structure Idle (conn : Conn) : Prop where
  buffer : conn.buffer = []
  start : conn.bufferStart = 0
  sent : conn.sent = []

/-- The state when the response is in the buffer. -/
def responded (p : Processed) (r : Relay) : Relay :=
  { r with
    conn := { r.conn with buffer := p.response }, data := p.data, writing := true, cgi := .write }

variable {p : Processed} {rest : Bytes}

theorem responded_account (hidle : Idle r.conn) :
    Account (p.response ++ rest) rest 0 (responded p r).conn := by
  refine ⟨?_, ?_, Nat.zero_le 1, fun h => absurd rfl h⟩
  · intro hne
    dsimp only [responded] at hne ⊢
    rw [hidle.start]
    exact List.length_pos_of_ne_nil hne
  · dsimp only [responded, held]
    rw [hidle.sent, hidle.start, List.drop_zero]
    exact .start

/-- The response is flushed at once: the request is over if nothing of it is left. -/
theorem settle_responded {c : Conn} {n : Nat} (hrest : p.data ++ r.output = rest)
    (hfreed : r.freed = false) (hresult : p.result = 0)
    (hconn : Account (p.response ++ rest) rest n c) :
    Sends p rest n failed (settle ({ responded p r with conn := c }, p.result)) := by
  have haccount : Account (p.response ++ rest) (p.data ++ r.output) n c := by
    rw [hrest]
    exact hconn
  rw [settle]
  split
  · rename_i hand
    refine ⟨by rintro ⟨⟩, haccount, by rintro ⟨⟩, fun _ _ => Or.inr ⟨hresult, ?_⟩⟩
    rw [pending]
    dsimp only
    rw [held_nil (List.eq_nil_of_length_eq_zero hand.2), List.nil_append]
    exact hrest
  · refine ⟨by rintro ⟨⟩, haccount, by rintro ⟨⟩, fun hf => ?_⟩
    cases hfreed.symm.trans hf

theorem respond_sends (hidle : Idle r.conn) (hlast : p.Last) (hrest : p.data ++ r.output = rest)
    (hfreed : r.freed = false) (hfits : p.response.length ≤ upperHalf) :
    ∃ s, respond e p r = some s ∧ Sends p rest
      (if p.flush = true ∧ empties e.toEvent (responded p r).conn = true then 1 else 0) failed
      (settle s) := by
  have haccount : Account (p.response ++ rest) rest 0 (responded p r).conn :=
    responded_account hidle
  rw [Processed.Last] at hlast
  rw [respond, if_neg (Nat.not_lt.mpr hfits)]
  change ∃ s, (if p.flush = true then
    (reqFlush e.now e.outcome (e.arrive (responded p r).conn)).map fun conn' =>
      ({ responded p r with conn := conn' }, p.result)
    else some (responded p r, p.result)) = some s ∧ _
  cases hflush : p.flush with
  | false =>
    rw [hflush, if_neg Bool.false_ne_true] at hlast
    rw [if_neg Bool.false_ne_true, if_neg (fun hand => Bool.false_ne_true hand.1)]
    refine ⟨_, rfl, ?_⟩
    rw [settle, hlast, if_neg (fun hand => absurd hand.1 Int.one_ne_zero)]
    refine ⟨by rintro ⟨⟩, ?_, by rintro ⟨⟩, fun hf => ?_⟩
    · dsimp only [responded]
      rw [hrest]
      exact haccount
    · cases hfreed.symm.trans hf
  | true =>
    rw [hflush, if_pos rfl] at hlast
    rw [if_pos rfl]
    by_cases hempty : p.response = []
    · have hfinish : reqFlush e.now e.outcome (e.arrive (responded p r).conn) =
          some (clear (e.arrive (responded p r).conn)) := by
        dsimp only [FileTransfer.reqFlush, FileTransfer.Event.arrive, responded]
        rw [hempty, hidle.start]
        rfl
      have hkeeps : empties e.toEvent (responded p r).conn = false := by
        simp [empties, FileTransfer.drops, responded, hempty]
      have hconn : Account (p.response ++ rest) rest 0 (clear (e.arrive (responded p r).conn)) := by
        refine ⟨fun hne => absurd rfl hne, ?_, Nat.zero_le 1, fun h => absurd rfl h⟩
        rw [hempty, List.nil_append]
        change Delivered rest r.conn.sent rest 0
        rw [hidle.sent]
        exact .start
      rw [hfinish, hkeeps, if_neg (fun hand => Bool.false_ne_true hand.2)]
      exact ⟨_, rfl, settle_responded hrest hfreed hlast hconn⟩
    · obtain ⟨c', hc', -, hconn⟩ := haccount.flush (e := e.toEvent) hempty
      rw [hc']
      refine ⟨_, rfl, ?_⟩
      rw [Nat.zero_add] at hconn
      simp only [true_and]
      exact settle_responded hrest hfreed hlast hconn

theorem count_true {c : Round → Relay → Bool} (hfreed : r.freed = false) :
    count c e r = if c e r = true then 1 else 0 := by
  rw [count, hfreed]
  exact if_congr ⟨fun h => h.2, fun h => ⟨rfl, h⟩⟩ rfl rfl

theorem serve_idle (hbuffer : r.conn.buffer = []) :
    serve q e r = if r.writing = true then some (writeFromPipe e r) else readFromPipe q e r := by
  rw [serve, hbuffer, if_neg (by simp)]

theorem settle_more (s : Relay) {result : Int} (h : result ≠ 0) : settle (s, result) = s :=
  if_neg fun hand => h hand.1

/-- The header is processed in this round. -/
theorem collect_processed (hidle : Idle conn) (h : Collects conn output lost failed r)
    (hfits : (answer q conn output).response.length ≤ upperHalf) (hfreed : r.freed = false)
    (hall : r.room = 0 ∨ r.output = [])
    (hread : readFromPipe q e r = respond e (processCgiHeader q r.data) r)
    (hprocesses : processes e r = true) :
    ∃ r', (readFromPipe q e r).map settle = some r' ∧
      Sends (answer q conn output) (behind q conn output) (count (drops q) e r) failed r' := by
  obtain ⟨hdata, houtput⟩ := h.firstPart_eq hall
  have hanswer : processCgiHeader q r.data = answer q conn output := by rw [hdata]; rfl
  have hrest : (answer q conn output).data ++ r.output = behind q conn output := by
    rw [houtput]
    rfl
  have hidle' : Idle r.conn := h.same ▸ hidle
  have hlast : (answer q conn output).Last := processCgiHeader_last q (firstPart conn output)
  obtain ⟨s, hs, hsends⟩ : ∃ s, respond e (answer q conn output) r = some s ∧
      Sends (answer q conn output) (behind q conn output)
        (if (answer q conn output).flush = true ∧
          empties e.toEvent (responded (answer q conn output) r).conn = true then 1 else 0)
        failed (settle s) :=
    respond_sends hidle' hlast hrest hfreed hfits
  have hflushes : flushes q e r = if (answer q conn output).flush = true then
      some (responded (answer q conn output) r).conn else none := by
    rw [flushes, if_neg (by simp [hidle'.buffer]), h.reading, hprocesses, hanswer]
    rfl
  have hdrops : count (drops q) e r = if (answer q conn output).flush = true ∧
      empties e.toEvent (responded (answer q conn output) r).conn = true then 1 else 0 := by
    rw [count_true hfreed, drops, hflushes]
    cases (answer q conn output).flush with
    | true => simp
    | false => simp
  rw [hread, hanswer, hs, hdrops]
  exact ⟨_, rfl, hsends⟩

/-- A round that only reads. -/
theorem Collects.quiet (h : Collects conn output lost failed r) (hidle : Idle conn)
    (hnot : processes e r = false) : drops q e r = false := by
  rw [drops, flushes, h.same, hidle.buffer, if_neg (by simp), hnot, Bool.and_false, Bool.false_and,
    if_neg Bool.false_ne_true]
  rfl

theorem step_collects (hidle : Idle conn) (h : Collects conn output lost failed r)
    (hfits : (answer q conn output).response.length ≤ upperHalf) (hfreed : r.freed = false) :
    ∃ r', step q e r = some r' ∧
      Kept q conn output (lost + count (drops q) e r) (failed + count fails e r) r' := by
  have hbuffer : r.conn.buffer = [] := by rw [h.same, hidle.buffer]
  have hfails : count fails e r = if r.room ≠ 0 ∧ e.input = .failed then 1 else 0 := by
    rw [count_true hfreed]
    apply if_congr _ rfl rfl
    simp [fails, hbuffer, h.reading]
  rw [step, if_neg (by simp [hfreed]), serve_idle hbuffer, h.reading, if_neg Bool.false_ne_true,
    h.nothing, Nat.zero_add, hfails]
  have hprocess : (r.room = 0 ∨ r.output = []) →
      readFromPipe q e r = respond e (processCgiHeader q r.data) r → processes e r = true →
      ¬ (r.room ≠ 0 ∧ e.input = .failed) → ∃ r', (readFromPipe q e r).map settle = some r' ∧
        Kept q conn output (count (drops q) e r)
          (failed + if r.room ≠ 0 ∧ e.input = .failed then 1 else 0) r' := by
    intro hall hread hprocesses hnot
    obtain ⟨r', hr', hsends⟩ := collect_processed hidle h hfits hfreed hall hread hprocesses
    rw [if_neg hnot]
    exact ⟨r', hr', Or.inr hsends⟩
  have hquiet : processes e r = false → count (drops q) e r = 0 := by
    intro hnot
    rw [count_true hfreed, h.quiet hidle hnot, if_neg Bool.false_ne_true]
  by_cases hroom : r.room = 0
  · apply hprocess (Or.inl hroom)
    · rw [readFromPipe, if_pos hroom, if_pos h.cgi]
    · simp [processes, h.cgi, hroom]
    · exact fun hand => hand.1 hroom
  cases hinput : e.input with
  | blocked =>
    rw [hquiet (by simp [processes, hroom, hinput]), if_neg (fun hand => by cases hand.2),
      readFromPipe, if_neg hroom, hinput]
    refine ⟨r, by rw [Option.map_some, settle_more r (by decide)], Or.inl ?_⟩
    exact ⟨h.same, h.cgi, h.reading, h.whole, h.room, rfl, h.freed⟩
  | failed =>
    rw [hquiet (by simp [processes, hroom, hinput]), if_pos ⟨hroom, rfl⟩,
      readFromPipe, if_neg hroom, hinput]
    refine ⟨{ r with freed := true }, ?_, Or.inl ?_⟩
    · rw [Option.map_some, settle, if_pos ⟨rfl, by rw [hbuffer]; rfl⟩]
    · exact ⟨h.same, h.cgi, h.reading, h.whole, h.room, rfl, fun _ => Nat.succ_ne_zero _⟩
  | got more =>
    by_cases hend : r.output = []
    · rw [← hinput]
      apply hprocess (Or.inr hend)
      · rw [readFromPipe, if_neg hroom, hinput]
        dsimp only
        rw [if_pos hend, if_pos h.cgi]
      · simp [processes, h.cgi, hinput, hend]
      · rw [hinput]
        exact fun hand => by cases hand.2
    · rw [hquiet (by simp [processes, hroom, hinput, hend]), if_neg (fun hand => by cases hand.2),
        readFromPipe, if_neg hroom, hinput]
      dsimp only
      rw [if_neg hend, Option.map_some, settle_more _ (by decide)]
      refine ⟨_, rfl, Or.inl ⟨h.same, h.cgi, h.reading, ?_, ?_, rfl, h.freed⟩⟩
      · dsimp only
        rw [List.append_assoc, List.take_append_drop]
        exact h.whole
      · have hsum := h.room
        have hread : min (min (more + 1) r.room) r.output.length ≤ r.room := by omega
        dsimp only
        rw [List.length_append, List.length_take]
        omega

theorem Sends.quiet {p : Processed} {rest : Bytes} (h : Sends p rest lost failed r)
    (hbuffer : r.conn.buffer = []) : drops q e r = false := by
  have hnot : processes e r = false := by simp [processes, h.cgi]
  rw [drops, flushes, hbuffer, if_neg (by simp), hnot, Bool.and_false, Bool.false_and,
    if_neg Bool.false_ne_true]
  rfl

/-- The state changes behind the bytes that are to be sent. -/
theorem Sends.same {p : Processed} {rest : Bytes} (h : Sends p rest lost failed r)
    (hfreed : r.freed = false) (hcgi : r'.cgi ≠ .read) (hconn : r'.conn = r.conn)
    (hbytes : r'.data ++ r'.output = r.data ++ r.output)
    (hclosed : r'.cgi = .close → r'.output = []) (hopen : r'.freed = r.freed) :
    Sends p rest lost failed r' := by
  refine ⟨hcgi, ?_, hclosed, fun hf => ?_⟩
  · rw [hconn, hbytes]
    exact h.account
  · rw [hopen, hfreed] at hf
    cases hf

theorem Sends.broken {p : Processed} {rest : Bytes} (h : Sends p rest lost failed r) :
    Sends p rest lost (failed + 1) { r with freed := true } :=
  ⟨h.cgi, h.account, h.closed, fun _ hnone => absurd hnone (Nat.succ_ne_zero failed)⟩

theorem settle_over (hbuffer : r.conn.buffer = []) : settle (r, 0) = { r with freed := true } :=
  if_pos ⟨rfl, by rw [hbuffer]; rfl⟩

theorem write_sends {p : Processed} {rest : Bytes} (h : Sends p rest lost failed r)
    (hfreed : r.freed = false) (hbuffer : r.conn.buffer = []) :
    Sends p rest lost (failed + if r.data ≠ [] ∧ e.outcome = .failed then 1 else 0)
      (settle (writeFromPipe e r)) := by
  have hheld : held r.conn = [] := held_nil hbuffer
  by_cases hdata : r.data = []
  · rw [if_neg (fun hand => hand.1 hdata), writeFromPipe, if_pos hdata]
    by_cases hclose : r.cgi = .close
    · rw [if_pos hclose, settle_over hbuffer]
      refine ⟨h.cgi, h.account, h.closed, fun _ _ => Or.inl ?_⟩
      rw [pending]
      dsimp only
      rw [hheld, hdata, h.closed hclose]
      rfl
    · rw [if_neg hclose, settle_more _ (by decide)]
      exact h.same hfreed h.cgi rfl rfl h.closed rfl
  · rw [writeFromPipe, if_neg hdata]
    cases houtcome : e.outcome with
    | blocked =>
      rw [if_neg (fun hand => by cases hand.2)]
      dsimp only
      rw [settle_more _ (by decide)]
      exact h
    | failed =>
      rw [if_pos ⟨hdata, rfl⟩]
      dsimp only
      rw [settle_over hbuffer]
      exact h.broken
    | wrote k =>
      rw [if_neg (fun hand => by cases hand.2)]
      dsimp only
      rw [settle_more _ (by decide)]
      obtain ⟨written, hwritten⟩ : ∃ n, n = min k r.data.length := ⟨_, rfl⟩
      rw [← hwritten]
      have haccount := h.account.delivered
      rw [hheld, List.nil_append, ← List.take_append_drop written r.data,
        List.append_assoc] at haccount
      have hnow := haccount.send
      refine ⟨h.cgi, ⟨fun hne => absurd hbuffer hne, ?_, h.account.once, h.account.gone⟩,
        h.closed, fun hf => ?_⟩
      · have hheld' : held { r.conn with sent := r.conn.sent ++ r.data.take written } = [] := hheld
        dsimp only
        rw [hheld', List.nil_append]
        exact hnow
      · cases hfreed.symm.trans hf

theorem read_sends {p : Processed} {rest : Bytes} (h : Sends p rest lost failed r)
    (hfreed : r.freed = false) (hbuffer : r.conn.buffer = []) :
    ∃ r', (readFromPipe q e r).map settle = some r' ∧
      Sends p rest lost (failed + if r.room ≠ 0 ∧ e.input = .failed then 1 else 0) r' := by
  by_cases hroom : r.room = 0
  · rw [if_neg (fun hand => hand.1 hroom), readFromPipe, if_pos hroom, if_neg h.cgi]
    refine ⟨_, by rw [Option.map_some, settle_more _ (by decide)], ?_⟩
    exact h.same hfreed h.cgi rfl rfl h.closed rfl
  rw [readFromPipe, if_neg hroom]
  cases hinput : e.input with
  | blocked =>
    have hnot : ¬ (r.room ≠ 0 ∧ Input.blocked = .failed) := fun hand => by cases hand.2
    rw [if_neg hnot]
    exact ⟨r, by rw [Option.map_some, settle_more _ (by decide)], h⟩
  | failed =>
    have hfailed : r.room ≠ 0 ∧ Input.failed = .failed := ⟨hroom, rfl⟩
    rw [if_pos hfailed]
    exact ⟨_, by rw [Option.map_some, settle_over hbuffer], h.broken⟩
  | got more =>
    have hnot : ¬ (r.room ≠ 0 ∧ Input.got more = .failed) := fun hand => by cases hand.2
    rw [if_neg hnot]
    dsimp only
    by_cases hend : r.output = []
    · rw [if_pos hend, if_neg h.cgi]
      refine ⟨_, by rw [Option.map_some, settle_more _ (by decide)], ?_⟩
      exact h.same hfreed (by rintro ⟨⟩) rfl rfl (fun _ => hend) rfl
    · rw [if_neg hend]
      refine ⟨_, by rw [Option.map_some, settle_more _ (by decide)], ?_⟩
      refine h.same hfreed h.cgi rfl ?_ ?_ rfl
      · dsimp only
        rw [List.append_assoc, List.take_append_drop]
      · intro hclose
        exact absurd (h.closed hclose) hend

/-- A round when the header is processed. -/
theorem step_sends {p : Processed} {rest : Bytes} (h : Sends p rest lost failed r)
    (hfreed : r.freed = false) :
    ∃ r', step q e r = some r' ∧
      Sends p rest (lost + count (drops q) e r) (failed + count fails e r) r' := by
  rw [step, if_neg (by simp [hfreed])]
  by_cases hbuffer : r.conn.buffer = []
  · have hdrops : count (drops q) e r = 0 := by
      rw [count_true hfreed, h.quiet hbuffer, if_neg Bool.false_ne_true]
    rw [hdrops, Nat.add_zero, serve_idle hbuffer]
    cases hwriting : r.writing with
    | true =>
      have hfails : count fails e r = if r.data ≠ [] ∧ e.outcome = .failed then 1 else 0 := by
        rw [count_true hfreed]
        apply if_congr _ rfl rfl
        simp [fails, hbuffer, hwriting]
      rw [if_pos rfl, hfails]
      exact ⟨_, rfl, write_sends h hfreed hbuffer⟩
    | false =>
      have hfails : count fails e r = if r.room ≠ 0 ∧ e.input = .failed then 1 else 0 := by
        rw [count_true hfreed]
        apply if_congr _ rfl rfl
        simp [fails, hbuffer, hwriting]
      rw [if_neg Bool.false_ne_true, hfails]
      exact read_sends h hfreed hbuffer
  · have hlength : r.conn.buffer.length ≠ 0 :=
      fun hzero => hbuffer (List.eq_nil_of_length_eq_zero hzero)
    obtain ⟨c', hc', -, haccount⟩ := h.account.flush (e := e.toEvent) hbuffer
    have hdrops : count (drops q) e r = if empties e.toEvent r.conn = true then 1 else 0 := by
      rw [count_true hfreed, drops, flushes, if_pos hlength]
      rfl
    have hfails : count fails e r = 0 := by
      rw [count_true hfreed, fails]
      simp [hbuffer]
    rw [serve, if_pos hlength, hc', hdrops, hfails]
    refine ⟨{ r with conn := c' },
      by rw [Option.map_some, Option.map_some, settle_more _ (by decide)], ?_⟩
    refine ⟨h.cgi, haccount, h.closed, fun hf => ?_⟩
    cases hfreed.symm.trans hf

theorem step_kept (hidle : Idle conn) (hfits : (answer q conn output).response.length ≤ upperHalf)
    (e : Round) (h : Kept q conn output lost failed r) :
    ∃ r', step q e r = some r' ∧
      Kept q conn output (lost + count (drops q) e r) (failed + count fails e r) r' := by
  cases hfreed : r.freed with
  | true =>
    have hnone (c : Round → Relay → Bool) : count c e r = 0 := by simp [count, hfreed]
    rw [hnone, hnone]
    exact ⟨r, if_pos hfreed, h⟩
  | false =>
    rcases h with hcollects | hsends
    · exact step_collects hidle hcollects hfits hfreed
    · obtain ⟨r', hr', h'⟩ := step_sends (q := q) (e := e) hsends hfreed
      exact ⟨r', hr', Or.inr h'⟩

theorem run_kept (hidle : Idle conn) (hfits : (answer q conn output).response.length ≤ upperHalf)
    (es : List Round) (h : Kept q conn output lost failed r) :
    ∃ r', run q es r = some r' ∧
      Kept q conn output (lost + times q (drops q) es r) (failed + times q fails es r) r' := by
  induction es generalizing r lost failed with
  | nil => exact ⟨r, rfl, h⟩
  | cons e es ih =>
    obtain ⟨r₁, hstep, hkept⟩ := step_kept hidle hfits e h
    obtain ⟨r', hrun, hkept'⟩ := ih hkept
    have htimes (c : Round → Relay → Bool) :
        times q c (e :: es) r = count c e r + times q c es r₁ := by
      rw [times, hstep]
      rfl
    refine ⟨r', by rw [run, hstep]; exact hrun, ?_⟩
    rw [htimes, htimes, ← Nat.add_assoc, ← Nat.add_assoc]
    exact hkept'

theorem initCgi_kept (conn : Conn) (output : Bytes) :
    Kept q conn output 0 0 (initCgi conn output) :=
  Or.inl ⟨rfl, rfl, rfl, rfl, Nat.zero_add _, rfl, fun h => by cases h⟩

/-- A request with `HEAD` and a response of two bytes. -/
def headRequest : CgiRequest where
  simple := false
  head := true
  requestOk := fun _ => [79, 75]
  error := [69]
  redirectTemp := fun url => url
  reach := 0

/-- A line of a header, an empty line and a body of two bytes. -/
def sampleOutput : Bytes := [65, 10, 10, 1, 2]

/-- The output comes in two parts, and the socket takes one byte at a time. -/
def sampleRounds : List Round :=
  [.got 2, .blocked, .got 9, .got 0, .blocked, .blocked, .blocked].map fun input =>
    { outcome := .wrote 1, now := 0, waitsec := 0, lasttime := 0, input }

/-- The body is sent although the method is `HEAD`, as the flush of the header was not over. -/
example : (run headRequest sampleRounds (initCgi (newRequest 0 0) sampleOutput)).map
    (·.conn.sent) = some [79, 75, 1, 2] := by
  decide

end CgiRelay
