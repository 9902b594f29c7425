import BoaGateway.CsrfToken
import BoaGateway.Delivery

/-!
# A file that is sent

`init_get` puts the beginning of the file behind the header in the buffer. The rounds of
`process_requests` flush the buffer and then write the rest of the mapped file, whatever the
socket takes of it. A flush that fails, or is blocked until its time is over, empties the buffer,
and the transfer goes on behind what was in it. With `USER_WEB_WIZARD` a request that is blocked may
be freed instead; those builds are not meant here.
-/

namespace FileTransfer

open ByteBlocks CsrfToken Delivery

/-- A request for a file; `closing` stands for the status `CLOSE`, else it is `WRITE`. It is freed
when `free_request` finds no output in its buffer. -/
structure Transfer where
  conn : Conn
  file : Bytes
  filepos : Nat
  closing : Bool
  freed : Bool
  deriving DecidableEq

/-- The end of `init_get`, behind `send_r_request_ok`, which has written to the buffer. -/
def initGet (conn : Conn) (file : Bytes) : Transfer :=
  let bob := min (conn.maxBufferSize - conn.buffer.length) file.length
  { conn := { conn with buffer := conn.buffer ++ file.take bob }
    file := file
    filepos := bob
    closing := bob = file.length
    freed := false }

/-- `req_flush` for a request that is not a form; `now` is `time_counter`. -/
def reqFlush (now : Int) (outcome : Outcome) (c : Conn) : Option Conn :=
  if c.buffer.length < c.bufferStart then none
  else if c.bufferStart < c.buffer.length then some (sendPending now outcome c)
  else some (finish c)

def processGet (outcome : Outcome) (t : Transfer) : Transfer × Int :=
  match outcome with
  | .blocked => (t, -1)
  | .failed => (t, 0)
  | .wrote count =>
    let written := min count (t.file.length - t.filepos)
    let t' :=
      { t with
        conn := { t.conn with sent := t.conn.sent ++ (t.file.drop t.filepos).take written }
        filepos := t.filepos + written }
    (t', if t'.filepos = t.file.length then 0 else 1)

/-- A round of the main loop for the request: what its `write` gives, the time, and what the
flushes of other requests have left in `waitsec` and `lasttime`. -/
structure Event where
  outcome : Outcome
  now : Int
  waitsec : Int
  lasttime : Int

def Event.arrive (e : Event) (c : Conn) : Conn :=
  { c with waitsec := e.waitsec, lasttime := e.lasttime }

/-- The handler of a round of `process_requests`, with `retval`. -/
def serve (e : Event) (t : Transfer) : Option (Transfer × Int) :=
  if t.conn.buffer.length ≠ 0 then
    (reqFlush e.now e.outcome (e.arrive t.conn)).map fun c =>
      ({ t with conn := c }, if t.closing = true then 0 else 1)
  else if t.closing = true then some (t, 0)
  else some (processGet e.outcome t)

def step (e : Event) (t : Transfer) : Option Transfer :=
  if t.freed = true then some t
  else
    (serve e t).map fun r =>
      if r.2 = 0 ∧ r.1.conn.buffer.length = 0 then { r.1 with freed := true } else r.1

def run : List Event → Transfer → Option Transfer
  | [], t => some t
  | e :: es, t => (step e t).bind (run es)

/-- What is still to be sent. -/
def pending (t : Transfer) : Bytes := t.conn.buffer.drop t.conn.bufferStart ++ t.file.drop t.filepos

/-- A flush empties the buffer. -/
def drops (e : Event) (t : Transfer) : Bool :=
  t.conn.buffer.length ≠ 0 &&
    match e.outcome with
    | .wrote _ => false
    | .blocked => (passWait e.now (startWait e.now (e.arrive t.conn))).waitsec = 0
    | .failed => true

/-- The write of `process_get` fails. -/
def fails (e : Event) (t : Transfer) : Bool :=
  t.conn.buffer.length = 0 && !t.closing && e.outcome = .failed

/-- The write of a round takes something. -/
def progress (e : Event) : Bool :=
  match e.outcome with
  | .wrote count => count ≠ 0
  | _ => false

/-- Whether a round satisfies a condition while the request is there, as a number. -/
def count (p : Event → Transfer → Bool) (e : Event) (t : Transfer) : Nat :=
  if t.freed = false ∧ p e t = true then 1 else 0

/-- How many rounds do. -/
def times (p : Event → Transfer → Bool) : List Event → Transfer → Nat
  | [], _ => 0
  | e :: es, t => count p e t + ((step e t).map (times p es)).getD 0

/-- The positions are where the account of the bytes says, and the buffer is gone after a loss. -/
structure Kept (whole : Bytes) (lost failed : Nat) (t : Transfer) : Prop where
  start : t.conn.buffer ≠ [] → t.conn.bufferStart < t.conn.buffer.length
  closing : t.closing = true → t.file.length ≤ t.filepos
  going : t.closing = false → t.freed = false → t.filepos < t.file.length
  account : Delivered whole t.conn.sent (pending t) lost
  once : lost ≤ 1
  gone : lost ≠ 0 → t.conn.buffer = []
  freed : t.freed = true → failed = 0 → pending t = []

variable {whole : Bytes} {lost failed : Nat} {t t' : Transfer} {e : Event} {c : Conn} {now : Int}

theorem initGet_kept (conn : Conn) (file : Bytes) (hstart : conn.bufferStart = 0)
    (hsent : conn.sent = []) : Kept (conn.buffer ++ file) 0 0 (initGet conn file) := by
  have hpending : pending (initGet conn file) = conn.buffer ++ file := by
    rw [pending]
    dsimp only [initGet]
    rw [hstart, List.drop_zero, List.append_assoc, List.take_append_drop]
  refine ⟨fun h => ?_, fun h => ?_, fun h _ => ?_, ?_, Nat.zero_le 1, fun h => absurd rfl h,
    fun h => absurd h nofun⟩
  · dsimp only [initGet] at h ⊢
    rw [hstart]
    exact List.length_pos_of_ne_nil h
  · have hall : min (conn.maxBufferSize - conn.buffer.length) file.length = file.length := by
      simpa [initGet] using h
    exact Nat.le_of_eq hall.symm
  · have hpart : min (conn.maxBufferSize - conn.buffer.length) file.length ≠ file.length := by
      simpa [initGet] using h
    exact Nat.lt_of_le_of_ne (Nat.min_le_right _ _) hpart
  · rw [hpending]
    dsimp only [initGet]
    rw [hsent]
    exact .start

/-- What is in the buffer and not sent. -/
def held (c : Conn) : Bytes := c.buffer.drop c.bufferStart

theorem startWait_held (now : Int) (c : Conn) :
    held (startWait now c) = held c ∧ (startWait now c).sent = c.sent ∧
      (startWait now c).buffer = c.buffer ∧ (startWait now c).bufferStart = c.bufferStart := by
  unfold startWait
  split
  · exact ⟨rfl, rfl, rfl, rfl⟩
  · exact ⟨rfl, rfl, rfl, rfl⟩

/-- A flush sends a part of what is in the buffer. -/
theorem flush_wrote (now : Int) (count : Nat) (hstart : c.bufferStart < c.buffer.length) :
    ∃ part, held c = part ++ held (sendPending now (.wrote count) c) ∧
      part.length = min count (c.buffer.length - c.bufferStart) ∧
      (sendPending now (.wrote count) c).sent = c.sent ++ part ∧
      ((sendPending now (.wrote count) c).buffer ≠ [] →
        (sendPending now (.wrote count) c).bufferStart <
          (sendPending now (.wrote count) c).buffer.length) := by
  obtain ⟨-, hsent, hbuffer, hbegin⟩ := startWait_held now c
  have hlength : ((c.buffer.drop c.bufferStart).take
      (min count (c.buffer.length - c.bufferStart))).length =
        min count (c.buffer.length - c.bufferStart) := by
    rw [List.length_take, List.length_drop]
    omega
  simp only [sendPending, hbuffer, hbegin, hsent, finish, held]
  split
  · rename_i hall
    have hall : c.bufferStart + min count (c.buffer.length - c.bufferStart) = c.buffer.length := hall
    refine ⟨_, ?_, hlength, rfl, fun h => absurd rfl h⟩
    dsimp only [clear]
    rw [List.drop_nil, List.append_nil, List.take_of_length_le]
    rw [List.length_drop]
    omega
  · rename_i hpart
    have hpart : c.bufferStart + min count (c.buffer.length - c.bufferStart) ≠ c.buffer.length :=
      hpart
    have hbehind : c.bufferStart + min count (c.buffer.length - c.bufferStart) < c.buffer.length := by
      omega
    refine ⟨_, ?_, hlength, rfl, fun _ => hbehind⟩
    rw [← List.drop_drop, List.take_append_drop]

/-- A flush that is blocked leaves the buffer or, when its time is over, empties it. -/
theorem flush_blocked (now : Int) (c : Conn) :
    (sendPending now .blocked c).sent = c.sent ∧
      if (passWait now (startWait now c)).waitsec = 0 then (sendPending now .blocked c).buffer = []
      else (sendPending now .blocked c).buffer = c.buffer ∧
        (sendPending now .blocked c).bufferStart = c.bufferStart := by
  obtain ⟨-, hsent, hbuffer, hbegin⟩ := startWait_held now c
  simp only [sendPending]
  split
  · exact ⟨hsent, rfl⟩
  · exact ⟨hsent, hbuffer, hbegin⟩

theorem flush_failed (now : Int) (c : Conn) :
    (sendPending now .failed c).sent = c.sent ∧ (sendPending now .failed c).buffer = [] :=
  ⟨(startWait_held now c).2.1, rfl⟩

/-- A flush with output in the buffer. -/
structure Flushed (e : Event) (dropped : Bool) (c c' : Conn) : Prop where
  start : c'.buffer ≠ [] → c'.bufferStart < c'.buffer.length
  moved : dropped = false → ∃ part, held c = part ++ held c' ∧ c'.sent = c.sent ++ part ∧
    (progress e = true → part ≠ [])
  lost : dropped = true → c'.buffer = [] ∧ c'.sent = c.sent ∧ progress e = false

/-- A flush of this connection empties the buffer. -/
def empties (e : Event) (c : Conn) : Bool :=
  drops e { conn := c, file := [], filepos := 0, closing := false, freed := false }

theorem reqFlush_flushed (hbuffer : c.buffer ≠ []) (hstart : c.bufferStart < c.buffer.length) :
    ∃ c', reqFlush e.now e.outcome (e.arrive c) = some c' ∧ Flushed e (empties e c) c c' := by
  have hlength : c.buffer.length ≠ 0 := fun hzero => hbuffer (List.eq_nil_of_length_eq_zero hzero)
  have hstart' : (e.arrive c).bufferStart < (e.arrive c).buffer.length := hstart
  refine ⟨sendPending e.now e.outcome (e.arrive c), ?_, ?_⟩
  · rw [reqFlush, if_neg (Nat.not_lt.mpr (Nat.le_of_lt hstart')), if_pos hstart']
  cases houtcome : e.outcome with
  | wrote count =>
    obtain ⟨part, hheld, hpart, hsent, hbegin⟩ := flush_wrote e.now count hstart'
    have hdrops : empties e c = false := by simp [empties, drops, houtcome]
    refine ⟨hbegin, fun _ => ⟨part, hheld, hsent, fun hprogress hnone => ?_⟩, fun h => ?_⟩
    · have hcount : count ≠ 0 := by simpa [progress, houtcome] using hprogress
      rw [hnone, List.length_nil] at hpart
      omega
    · cases h.symm.trans hdrops
  | blocked =>
    obtain ⟨hsent, hleft⟩ := flush_blocked e.now (e.arrive c)
    have hprogress : progress e = false := by simp [progress, houtcome]
    split at hleft
    · rename_i hover
      have hdrops : empties e c = true := by simp [empties, drops, houtcome, hlength, hover]
      refine ⟨fun h => absurd hleft h, fun h => ?_, fun _ => ⟨hleft, hsent, hprogress⟩⟩
      cases h.symm.trans hdrops
    · rename_i hover
      have hdrops : empties e c = false := by simp [empties, drops, houtcome, hover]
      obtain ⟨hsame, hbegin⟩ := hleft
      refine ⟨fun _ => ?_, fun _ => ⟨[], ?_, ?_, fun h => ?_⟩, fun h => ?_⟩
      · rw [hsame, hbegin]
        exact hstart
      · rw [held, held, hsame, hbegin]
        rfl
      · rw [hsent, List.append_nil]
        rfl
      · cases h.symm.trans hprogress
      · cases h.symm.trans hdrops
  | failed =>
    obtain ⟨hsent, hnone⟩ := flush_failed e.now (e.arrive c)
    have hprogress : progress e = false := by simp [progress, houtcome]
    have hdrops : empties e c = true := by simp [empties, drops, houtcome, hlength]
    refine ⟨fun h => absurd hnone h, fun h => ?_, fun _ => ⟨hnone, hsent, hprogress⟩⟩
    cases h.symm.trans hdrops

theorem held_nil (h : c.buffer = []) : held c = [] := by
  rw [held, h, List.drop_nil]

/-- The account of the bytes when what is in the buffer and the rest behind it are to be sent. -/
structure Account (whole rest : Bytes) (lost : Nat) (c : Conn) : Prop where
  start : c.buffer ≠ [] → c.bufferStart < c.buffer.length
  delivered : Delivered whole c.sent (held c ++ rest) lost
  once : lost ≤ 1
  gone : lost ≠ 0 → c.buffer = []

/-- A flush keeps the account, with a loss if it empties the buffer. -/
theorem Account.flush {rest : Bytes} (h : Account whole rest lost c) (hbuffer : c.buffer ≠ []) :
    ∃ c', reqFlush e.now e.outcome (e.arrive c) = some c' ∧ Flushed e (empties e c) c c' ∧
      Account whole rest (lost + if empties e c = true then 1 else 0) c' := by
  obtain ⟨c', hflush, hflushed⟩ := reqFlush_flushed (e := e) hbuffer (h.start hbuffer)
  have hnone : lost = 0 := by
    by_contra hlost
    exact hbuffer (h.gone hlost)
  refine ⟨c', hflush, hflushed, hflushed.start, ?_, ?_, ?_⟩
  · have haccount := h.delivered
    cases hdrops : empties e c with
    | false =>
      obtain ⟨part, hheld, hsent, -⟩ := hflushed.moved hdrops
      rw [hheld, List.append_assoc] at haccount
      rw [hsent, if_neg nofun]
      exact haccount.send part
    | true =>
      obtain ⟨hempty, hsent, -⟩ := hflushed.lost hdrops
      rw [hsent, held_nil hempty, List.nil_append, if_pos rfl]
      exact haccount.lose (held c)
  · rw [hnone]
    split
    · exact Nat.le_refl 1
    · exact Nat.zero_le 1
  · intro hlost
    cases hdrops : empties e c with
    | false =>
      rw [hdrops, if_neg nofun, hnone] at hlost
      exact absurd rfl hlost
    | true => exact (hflushed.lost hdrops).1

theorem count_false {p : Event → Transfer → Bool} (h : p e t = false) : count p e t = 0 := by
  simp [count, h]

theorem count_true {p : Event → Transfer → Bool} (h : p e t = true) (hfreed : t.freed = false) :
    count p e t = 1 := by
  simp [count, h, hfreed]

theorem count_drops (hfreed : t.freed = false) :
    count drops e t = if empties e t.conn = true then 1 else 0 := by
  rw [count, hfreed]
  exact if_congr ⟨fun h => h.2, fun h => ⟨rfl, h⟩⟩ rfl rfl

theorem pending_eq (t : Transfer) : pending t = held t.conn ++ t.file.drop t.filepos := rfl

theorem Kept.accounted (h : Kept whole lost failed t) :
    Account whole (t.file.drop t.filepos) lost t.conn :=
  ⟨h.start, h.account, h.once, h.gone⟩

/-- A round of a request with output in its buffer. -/
theorem step_flush (h : Kept whole lost failed t) (hfreed : t.freed = false)
    (hbuffer : t.conn.buffer ≠ []) :
    ∃ t', step e t = some t' ∧ Kept whole (lost + count drops e t) failed t' ∧
      (t'.freed = false → (pending t').length + count (fun e _ => progress e) e t ≤
        (pending t).length) := by
  obtain ⟨c', hflush, hflushed, haccount⟩ := h.accounted.flush (e := e) hbuffer
  have hlength : t.conn.buffer.length ≠ 0 := fun hzero => hbuffer (List.eq_nil_of_length_eq_zero hzero)
  have hstep : step e t = some { t with
      conn := c', freed := decide (t.closing = true ∧ c'.buffer.length = 0) } := by
    rw [step, if_neg (by simp [hfreed]), serve, if_pos hlength, hflush]
    cases hclosing : t.closing with
    | true =>
      by_cases hempty : c'.buffer = []
      · simp [hempty]
      · simp [hempty, hfreed]
    | false => simp [hfreed]
  rw [count_drops hfreed]
  refine ⟨_, hstep, ⟨haccount.start, h.closing, fun hc _ => h.going hc hfreed,
    haccount.delivered, haccount.once, haccount.gone, ?_⟩, ?_⟩
  · intro hgone _
    obtain ⟨hclosing, hempty⟩ := of_decide_eq_true hgone
    rw [pending_eq]
    dsimp only
    rw [held_nil (List.eq_nil_of_length_eq_zero hempty), List.nil_append,
      List.drop_eq_nil_of_le (h.closing hclosing)]
  · intro _
    rw [pending_eq, pending_eq, List.length_append, List.length_append]
    dsimp only
    cases hdrops : empties e t.conn with
    | false =>
      obtain ⟨part, hheld, -, hpart⟩ := hflushed.moved hdrops
      rw [hheld, List.length_append]
      cases hprogress : progress e with
      | false =>
        rw [count_false hprogress]
        omega
      | true =>
        have hpos := List.length_pos_of_ne_nil (hpart hprogress)
        rw [count_true hprogress hfreed]
        omega
    | true =>
      obtain ⟨hempty, -, hprogress⟩ := hflushed.lost hdrops
      rw [held_nil hempty, count_false hprogress, List.length_nil]
      omega

/-- A round of a request that has no output in its buffer. -/
theorem step_get (h : Kept whole lost failed t) (hfreed : t.freed = false)
    (hbuffer : t.conn.buffer = []) :
    ∃ t', step e t = some t' ∧ Kept whole lost (failed + count fails e t) t' ∧
      (t'.freed = false → (pending t').length + count (fun e _ => progress e) e t ≤
        (pending t).length) := by
  have hpending : pending t = t.file.drop t.filepos := by
    rw [pending_eq, held_nil hbuffer, List.nil_append]
  rw [step, if_neg (by simp [hfreed]), serve, if_neg (by simp [hbuffer])]
  cases hclosing : t.closing with
  | true =>
    have hdone : pending t = [] := by rw [hpending, List.drop_eq_nil_of_le (h.closing hclosing)]
    rw [if_pos rfl, Option.map_some, if_pos ⟨rfl, by rw [hbuffer]; rfl⟩]
    refine ⟨_, rfl, ⟨h.start, h.closing, fun hc => ?_, h.account, h.once, h.gone,
      fun _ _ => hdone⟩, nofun⟩
    cases hc.symm.trans hclosing
  | false =>
    have hgoing := h.going hclosing hfreed
    rw [if_neg nofun, Option.map_some]
    cases houtcome : e.outcome with
    | blocked =>
      have hprogress : progress e = false := by simp [progress, houtcome]
      refine ⟨t, by simp [processGet], ?_, fun _ => ?_⟩
      · rw [count_false (by simp [fails, houtcome])]
        exact h
      · rw [count_false hprogress]
        exact Nat.le_refl _
    | failed =>
      have hfails : fails e t = true := by simp [fails, hbuffer, hclosing, houtcome]
      refine ⟨{ t with freed := true }, by simp [processGet, hbuffer], ?_, nofun⟩
      rw [count_true hfails hfreed]
      exact ⟨h.start, h.closing, nofun, h.account, h.once, h.gone,
        fun _ hfailed => absurd hfailed (Nat.succ_ne_zero _)⟩
    | wrote k =>
      obtain ⟨n, hn⟩ : ∃ n, n = min k (t.file.length - t.filepos) := ⟨_, rfl⟩
      have hnone : fails e t = false := by simp [fails, houtcome]
      have hsplit : pending t =
          (t.file.drop t.filepos).take n ++ t.file.drop (t.filepos + n) := by
        rw [hpending, ← List.drop_drop, List.take_append_drop]
      have haccount := h.account
      rw [hsplit] at haccount
      have hgot : processGet (.wrote k) t =
          ({ t with
            conn := { t.conn with sent := t.conn.sent ++ (t.file.drop t.filepos).take n }
            filepos := t.filepos + n }, if t.filepos + n = t.file.length then 0 else 1) := by
        rw [hn]
        rfl
      have hheld (s : Bytes) : held { t.conn with sent := s } = [] := held_nil hbuffer
      rw [hgot, count_false hnone]
      dsimp only
      by_cases hend : t.filepos + n = t.file.length
      · rw [if_pos hend, if_pos ⟨rfl, by rw [hbuffer]; rfl⟩]
        refine ⟨_, rfl, ⟨h.start, fun _ => Nat.le_of_eq hend.symm, nofun, ?_, h.once, h.gone,
          fun _ _ => ?_⟩, nofun⟩
        · rw [pending_eq]
          dsimp only
          rw [hheld, List.nil_append]
          exact haccount.send _
        · rw [pending_eq]
          dsimp only
          rw [hheld, List.nil_append, List.drop_eq_nil_of_le (Nat.le_of_eq hend.symm)]
      · rw [if_neg hend, if_neg (fun hboth => absurd hboth.1 nofun)]
        refine ⟨_, rfl, ⟨h.start, fun hc => ?_, fun _ _ => ?_, ?_, h.once, h.gone, fun hf => ?_⟩,
          fun _ => ?_⟩
        · cases hc.symm.trans hclosing
        · dsimp only
          omega
        · rw [pending_eq]
          dsimp only
          rw [hheld, List.nil_append]
          exact haccount.send _
        · cases hf.symm.trans hfreed
        · rw [pending_eq, hpending]
          dsimp only
          rw [hheld, List.nil_append, List.length_drop, List.length_drop]
          cases hprogress : progress e with
          | false =>
            rw [count_false hprogress]
            omega
          | true =>
            have hk : k ≠ 0 := by simpa [progress, houtcome] using hprogress
            rw [count_true hprogress hfreed]
            omega

theorem step_kept (e : Event) (h : Kept whole lost failed t) :
    ∃ t', step e t = some t' ∧ Kept whole (lost + count drops e t) (failed + count fails e t) t' ∧
      (t'.freed = false → (pending t').length + count (fun e _ => progress e) e t ≤
        (pending t).length) := by
  cases hfreed : t.freed with
  | true =>
    have hnone (p : Event → Transfer → Bool) : count p e t = 0 := by simp [count, hfreed]
    refine ⟨t, if_pos hfreed, ?_, fun hopen => ?_⟩
    · rw [hnone, hnone]
      exact h
    · cases hopen.symm.trans hfreed
  | false =>
    by_cases hbuffer : t.conn.buffer = []
    · obtain ⟨t', hstep, hkept, hless⟩ := step_get (e := e) h hfreed hbuffer
      have hdrops : drops e t = false := by simp [drops, hbuffer]
      exact ⟨t', hstep, by rwa [count_false hdrops], hless⟩
    · obtain ⟨t', hstep, hkept, hless⟩ := step_flush (e := e) h hfreed hbuffer
      have hfails : fails e t = false := by simp [fails, hbuffer]
      exact ⟨t', hstep, by rwa [count_false hfails], hless⟩

theorem run_freed (es : List Event) (hfreed : t.freed = true) : run es t = some t := by
  induction es with
  | nil => rfl
  | cons e es ih => rw [run, step, if_pos hfreed, Option.bind_some, ih]

theorem run_kept (es : List Event) (h : Kept whole lost failed t) :
    ∃ t', run es t = some t' ∧ Kept whole (lost + times drops es t) (failed + times fails es t) t' ∧
      (t'.freed = false → (pending t').length + times (fun e _ => progress e) es t ≤
        (pending t).length) := by
  induction es generalizing t lost failed with
  | nil => exact ⟨t, rfl, h, fun _ => Nat.le_refl _⟩
  | cons e es ih =>
    obtain ⟨t₁, hstep, hkept₁, hless₁⟩ := step_kept e h
    obtain ⟨t', hrun, hkept, hless⟩ := ih hkept₁
    have htimes (p : Event → Transfer → Bool) :
        times p (e :: es) t = count p e t + times p es t₁ := by
      rw [times, hstep]
      rfl
    refine ⟨t', by rw [run, hstep]; exact hrun, ?_, fun hopen => ?_⟩
    · rw [htimes, htimes, ← Nat.add_assoc, ← Nat.add_assoc]
      exact hkept
    · rw [htimes]
      cases hfreed : t₁.freed with
      | true =>
        obtain rfl := Option.some.inj (hrun.symm.trans (run_freed es hfreed))
        cases hopen.symm.trans hfreed
      | false =>
        have hfirst := hless₁ hfreed
        have hrest := hless hopen
        omega

/-- The socket gets the header and the file in order but for one hole at most, which is there only
when a flush has emptied the buffer. A request that is freed has sent the rest, unless its last
write failed; and it is freed once more writes have taken something than there are bytes. -/
theorem transfer_sent (conn : Conn) (hstart : conn.bufferStart = 0) (hsent : conn.sent = [])
    (file : Bytes) (es : List Event) :
    ∃ t, run es (initGet conn file) = some t ∧
      (∃ before hole behind, conn.buffer ++ file = before ++ hole ++ behind ++ pending t ∧
        t.conn.sent = before ++ behind ∧ (times drops es (initGet conn file) = 0 → hole = [])) ∧
      (t.freed = true → times fails es (initGet conn file) = 0 → pending t = []) ∧
      ((conn.buffer ++ file).length < times (fun e _ => progress e) es (initGet conn file) →
        t.freed = true) := by
  obtain ⟨t, hrun, hkept, hless⟩ := run_kept es (initGet_kept conn file hstart hsent)
  rw [Nat.zero_add, Nat.zero_add] at hkept
  refine ⟨t, hrun, hkept.account.hole hkept.once, hkept.freed, fun hmany => ?_⟩
  cases hfreed : t.freed with
  | true => rfl
  | false =>
    have hbound := hless hfreed
    have hwhole : (pending (initGet conn file)).length = (conn.buffer ++ file).length := by
      rw [pending_eq, held]
      dsimp only [initGet]
      rw [hstart, List.drop_zero, List.append_assoc, List.take_append_drop]
    omega

/-- A header of two bytes in the buffer. -/
def sampleConn : Conn := { newRequest 0 0 with buffer := [72, 10] }

/-- More than the buffer holds. -/
def sampleFile : Bytes := List.replicate 9000 65

/-- Two flushes with one between them that is blocked, and two writes from the file. -/
def sampleEvents : List Event :=
  [⟨.wrote 1, 0, 0, 0⟩, ⟨.blocked, 1, 10, 0⟩, ⟨.wrote 9000, 2, 9, 1⟩, ⟨.wrote 5, 3, 0, 0⟩,
    ⟨.wrote 9000, 4, 0, 0⟩]

theorem transfer_sent_sample :
    ∃ t, run sampleEvents (initGet sampleConn sampleFile) = some t ∧
      (∃ before hole behind, sampleConn.buffer ++ sampleFile = before ++ hole ++ behind ++ pending t ∧
        t.conn.sent = before ++ behind ∧
        (times drops sampleEvents (initGet sampleConn sampleFile) = 0 → hole = [])) ∧
      (t.freed = true → times fails sampleEvents (initGet sampleConn sampleFile) = 0 →
        pending t = []) ∧
      ((sampleConn.buffer ++ sampleFile).length <
          times (fun e _ => progress e) sampleEvents (initGet sampleConn sampleFile) →
        t.freed = true) :=
  transfer_sent sampleConn rfl rfl sampleFile sampleEvents

end FileTransfer
