import BoaGateway.Texts
import BoaGateway.TranslateUri

/-!
# The token in the forms of a response

`asp_page.c` and `util.c`, with `CONFIG_USER_BOA_CSRF`: what a page writes is gathered in the
buffer of its request. Every flush first goes over the buffer, puts the hidden input in front of
each end of a form and adds a line feed; then it sends what the socket takes. The buffer grows as
it has to; the temporary file, its mapping and the allocations are taken to succeed.
-/

namespace CsrfToken

open ByteBlocks Texts TranslateUri

/-- The text of a token, which stands in an array of 33 bytes. -/
abbrev Token := {t : Bytes // t.length ≤ 32 ∧ (0 : UInt8) ∉ t}

/-- A request that is answered by a page, the times of the last write, and the bytes that the
socket has taken. The buffer is shown up to `buffer_end`. -/
structure Conn where
  buffer : Bytes
  bufferStart : Nat
  csrfEnd : Nat
  maxBufferSize : Nat
  waitsec : Int
  lasttime : Int
  sent : Bytes
  deriving DecidableEq

/-- What comes of a `write`: it takes so many bytes, it would block, or it fails for good. -/
inductive Outcome where
  | wrote (count : Nat)
  | blocked
  | failed
  deriving DecidableEq

def clientStreamSize : Nat := 4096

/-- `new_request`. -/
def newRequest (waitsec lasttime : Int) : Conn := ⟨[], 0, 0, clientStreamSize, waitsec, lasttime, []⟩

/-- A `memcpy` to the end of the buffer. -/
def put (s : Bytes) (c : Conn) : Option Conn :=
  if c.buffer.length + s.length ≤ c.maxBufferSize then some { c with buffer := c.buffer ++ s }
  else none

def allocNewBuffer (c : Conn) : Conn :=
  { c with buffer := c.buffer.take c.maxBufferSize, maxBufferSize := c.maxBufferSize * 2 }

/-- The loop of `boaWriteBlock`; it ends within `bob` turns. -/
def growFor (bob : Nat) : Nat → Conn → Conn
  | 0, c => c
  | k + 1, c =>
    if c.maxBufferSize < bob + c.buffer.length then growFor bob k (allocNewBuffer c) else c

def boaWriteBlock (buf : Bytes) (c : Conn) : Option Conn :=
  let c := growFor buf.length buf.length c
  if 0 < buf.length then put buf c else some c

/-- `boaWrite`, when this is the text that its format gives. -/
def boaWrite (text : Bytes) (c : Conn) : Option Conn := boaWriteBlock (cstr (text.take 8191)) c

def tockenForm : Bytes := ascii "</FORM>"

def tockenSize : Nat := 7

/-- `strncasecmp` with `TOCKEN_FORM` gives 0. -/
def tagAt (s : Bytes) : Bool := (s.take tockenSize).map toLower == tockenForm.map toLower

/-- The text in `csrf_buf`. -/
def csrfBuf (token : Token) : Bytes :=
  ascii "<input type='hidden' name='csrftoken' value='" ++ token.1 ++ ascii "' />\x0d\n"

/-- Where `csrf_end` stands when `handleCSRFToken` goes over the buffer, if it does. -/
def passStart (c : Conn) : Option Nat :=
  if c.bufferStart = 0 then
    if c.csrfEnd ≠ 0 then
      if c.csrfEnd = c.buffer.length then none else some c.bufferStart
    else some c.csrfEnd
  else if c.csrfEnd = c.buffer.length then none else some c.csrfEnd

/-- What the loop of `handleCSRFToken` copies, turn by turn. -/
def pieces (token : Token) : Nat → Bytes → List Bytes
  | 0, _ => []
  | _ + 1, [] => []
  | k + 1, b :: s =>
    if b = 0 then []
    else if tockenSize < (b :: s).length ∧ tagAt (b :: s) then
      (csrfBuf token ++ (b :: s).take tockenSize) :: pieces token k ((b :: s).drop tockenSize)
    else [b] :: pieces token k s

/-- One turn: a single new buffer if it does not fit, and the copy. -/
def copyPiece (c : Conn) (p : Bytes) : Option Conn :=
  put p (if c.maxBufferSize < c.buffer.length + p.length then allocNewBuffer c else c)

def handleCSRFToken (token : Token) (c : Conn) : Option Conn :=
  match passStart c with
  | none => some c
  | some e =>
    if e ≤ c.buffer.length then
      let data := c.buffer.drop e ++ [10]
      ((pieces token data.length data).foldlM copyPiece { c with buffer := c.buffer.take e }).map
        fun c => { c with csrfEnd := c.buffer.length }
    else none

/-- The time that a `write` is given. -/
def startWait (now : Int) (c : Conn) : Conn :=
  if c.waitsec = 0 then { c with waitsec := 10, lasttime := now } else c

/-- The time that is left when it gives -1. -/
def passWait (now : Int) (c : Conn) : Conn :=
  { c with waitsec := c.waitsec - (now - c.lasttime), lasttime := now }

def clear (c : Conn) : Conn := { c with buffer := [], bufferStart := 0 }

/-- The end of `req_flush`. -/
def finish (c : Conn) : Conn := if c.bufferStart = c.buffer.length then clear c else c

/-- The `write` of `req_flush` and what follows it. -/
def sendPending (now : Int) (outcome : Outcome) (c : Conn) : Conn :=
  let c := startWait now c
  match outcome with
  | .wrote count =>
    let written := min count (c.buffer.length - c.bufferStart)
    finish
      { c with
        waitsec := 0
        sent := c.sent ++ (c.buffer.drop c.bufferStart).take written
        bufferStart := c.bufferStart + written }
  | .blocked => if (passWait now c).waitsec = 0 then clear (passWait now c) else passWait now c
  | .failed => clear (passWait now c)

/-- `req_flush`, for a request with `is_cgi` and without `SERVER_SSL`; `now` is `time_counter`. -/
def reqFlush (token : Token) (now : Int) (outcome : Outcome) (c : Conn) : Option Conn :=
  (handleCSRFToken token c).bind fun c =>
    if c.buffer.length < c.bufferStart then none
    else if c.bufferStart < c.buffer.length then some (sendPending now outcome c)
    else some (finish c)

/-- The buffer is within its size, and what is marked in it is within the buffer. -/
structure Bounded (c : Conn) : Prop where
  size : clientStreamSize ≤ c.maxBufferSize
  fits : c.buffer.length ≤ c.maxBufferSize
  marked : c.bufferStart ≠ 0 → c.bufferStart ≤ c.csrfEnd ∧ c.csrfEnd ≤ c.buffer.length

variable {c : Conn} {token : Token}

theorem Bounded.start_le (h : Bounded c) : c.bufferStart ≤ c.buffer.length := by
  by_cases hzero : c.bufferStart = 0
  · omega
  · exact (h.marked hzero).1.trans (h.marked hzero).2

theorem allocNewBuffer_eq (h : c.buffer.length ≤ c.maxBufferSize) :
    allocNewBuffer c = { c with maxBufferSize := c.maxBufferSize * 2 } := by
  rw [allocNewBuffer, List.take_of_length_le h]

theorem put_eq {s : Bytes} (h : c.buffer.length + s.length ≤ c.maxBufferSize) :
    put s c = some { c with buffer := c.buffer ++ s } := if_pos h

/-- With `k` turns the buffer has grown by `k` bytes at least, if it had to. -/
theorem growFor_eq (bob k : Nat) (hpos : 0 < c.maxBufferSize)
    (h : c.buffer.length ≤ c.maxBufferSize) :
    ∃ m, c.maxBufferSize ≤ m ∧ (bob + c.buffer.length ≤ m ∨ c.maxBufferSize + k ≤ m) ∧
      growFor bob k c = { c with maxBufferSize := m } := by
  induction k generalizing c with
  | zero => exact ⟨c.maxBufferSize, le_rfl, Or.inr le_rfl, rfl⟩
  | succ k ih =>
    rw [growFor]
    split
    · rw [allocNewBuffer_eq h]
      obtain ⟨m, hle, hm, heq⟩ := ih (c := { c with maxBufferSize := c.maxBufferSize * 2 })
        (Nat.mul_pos hpos two_pos) (by dsimp only; omega)
      dsimp only at hle hm
      exact ⟨m, by omega, by omega, heq⟩
    · exact ⟨c.maxBufferSize, le_rfl, by omega, rfl⟩

theorem boaWrite_eq (h : Bounded c) (text : Bytes) :
    ∃ m, c.maxBufferSize ≤ m ∧ (c.buffer ++ cstr (text.take 8191)).length ≤ m ∧
      boaWrite text c =
        some { c with buffer := c.buffer ++ cstr (text.take 8191), maxBufferSize := m } := by
  have hpos : 0 < c.maxBufferSize := lt_of_lt_of_le (by decide) h.size
  obtain ⟨m, hle, hm, heq⟩ :=
    growFor_eq (cstr (text.take 8191)).length (cstr (text.take 8191)).length hpos h.fits
  have hfits := h.fits
  have hroom : c.buffer.length + (cstr (text.take 8191)).length ≤ m := by omega
  refine ⟨m, hle, by rw [List.length_append]; exact hroom, ?_⟩
  rw [boaWrite, boaWriteBlock, heq]
  split
  · exact put_eq hroom
  · rename_i hempty
    rw [List.eq_nil_of_length_eq_zero (by omega : (cstr (text.take 8191)).length = 0),
      List.append_nil]

theorem copyPiece_eq (hsize : clientStreamSize ≤ c.maxBufferSize)
    (hfits : c.buffer.length ≤ c.maxBufferSize) {p : Bytes} (hp : p.length ≤ clientStreamSize) :
    ∃ m, c.maxBufferSize ≤ m ∧ c.buffer.length + p.length ≤ m ∧
      copyPiece c p = some { c with buffer := c.buffer ++ p, maxBufferSize := m } := by
  rw [copyPiece]
  split
  · refine ⟨c.maxBufferSize * 2, by omega, by omega, ?_⟩
    rw [allocNewBuffer_eq hfits]
    exact put_eq (by dsimp only; omega)
  · exact ⟨c.maxBufferSize, le_rfl, by omega, put_eq (by omega)⟩

theorem copyPieces_eq {ps : List Bytes} (hps : ∀ p ∈ ps, p.length ≤ clientStreamSize)
    (hsize : clientStreamSize ≤ c.maxBufferSize) (hfits : c.buffer.length ≤ c.maxBufferSize) :
    ∃ m, c.maxBufferSize ≤ m ∧ (c.buffer ++ ps.flatten).length ≤ m ∧
      ps.foldlM copyPiece c =
        some { c with buffer := c.buffer ++ ps.flatten, maxBufferSize := m } := by
  induction ps generalizing c with
  | nil => exact ⟨c.maxBufferSize, le_rfl, by simpa using hfits, by simp⟩
  | cons p ps ih =>
    obtain ⟨m, hle, hm, heq⟩ := copyPiece_eq hsize hfits (hps p List.mem_cons_self)
    obtain ⟨m', hle', hm', heq'⟩ := ih (c := { c with buffer := c.buffer ++ p, maxBufferSize := m })
      (fun q hq => hps q (List.mem_cons_of_mem p hq)) (hsize.trans hle)
      (by rw [List.length_append]; exact hm)
    refine ⟨m', hle.trans hle', ?_, ?_⟩
    · rw [List.flatten_cons, ← List.append_assoc]
      exact hm'
    · rw [List.foldlM_cons, heq, List.flatten_cons, ← List.append_assoc]
      exact heq'

theorem csrfBuf_length (token : Token) : (csrfBuf token).length = 51 + token.1.length := by
  have hfront : (ascii "<input type='hidden' name='csrftoken' value='").length = 45 := by decide
  have hback : (ascii "' />\x0d\n").length = 6 := by decide
  rw [csrfBuf, List.length_append, List.length_append, hfront, hback]
  omega

theorem pieces_short (token : Token) {k : Nat} {s : Bytes} :
    ∀ p ∈ pieces token k s, p.length ≤ clientStreamSize := by
  fun_induction pieces token k s with
  | case1 => simp
  | case2 => simp
  | case3 => simp
  | case4 k b s _ _ ih =>
    rw [List.forall_mem_cons]
    refine ⟨?_, ih⟩
    have htoken := token.2.1
    rw [List.length_append, csrfBuf_length, List.length_take, clientStreamSize, tockenSize]
    omega
  | case5 k b s _ _ ih =>
    rw [List.forall_mem_cons]
    exact ⟨by rw [clientStreamSize, List.length_singleton]; omega, ih⟩

/-- The buffer after a pass from there on. -/
def gone (token : Token) (e : Nat) (buffer : Bytes) : Bytes :=
  buffer.take e ++
    (pieces token (buffer.drop e ++ [10]).length (buffer.drop e ++ [10])).flatten

theorem passStart_some {e : Nat} (he : passStart c = some e) :
    (c.bufferStart = 0 ∧ e = 0) ∨ (c.bufferStart ≠ 0 ∧ e = c.csrfEnd) := by
  rw [passStart] at he
  split at he
  · rename_i hzero
    split at he
    · split at he
      · exact absurd he (by simp)
      · rw [Option.some_inj] at he
        exact Or.inl ⟨hzero, by omega⟩
    · rw [Option.some_inj] at he
      exact Or.inl ⟨hzero, by omega⟩
  · rename_i hzero
    split at he
    · exact absurd he (by simp)
    · rw [Option.some_inj] at he
      exact Or.inr ⟨hzero, he.symm⟩

theorem passStart_le (h : Bounded c) {e : Nat} (he : passStart c = some e) :
    c.bufferStart ≤ e ∧ e ≤ c.buffer.length := by
  rcases passStart_some he with ⟨hzero, rfl⟩ | ⟨hne, rfl⟩
  · exact ⟨hzero.le, Nat.zero_le _⟩
  · exact h.marked hne

theorem passStart_none (he : passStart c = none) :
    c.csrfEnd = c.buffer.length ∧ (c.bufferStart = 0 → c.csrfEnd ≠ 0) := by
  rw [passStart] at he
  split at he
  · split at he
    · rename_i hne
      split at he
      · rename_i hend
        exact ⟨hend, fun _ => hne⟩
      · exact absurd he (by simp)
    · exact absurd he (by simp)
  · rename_i hne
    split at he
    · rename_i hend
      exact ⟨hend, fun hzero => absurd hzero hne⟩
    · exact absurd he (by simp)

theorem handleCSRFToken_eq (token : Token) (h : Bounded c) {e : Nat} (he : passStart c = some e) :
    ∃ m, c.maxBufferSize ≤ m ∧ (gone token e c.buffer).length ≤ m ∧
      handleCSRFToken token c =
        some
          { c with
            buffer := gone token e c.buffer
            csrfEnd := (gone token e c.buffer).length
            maxBufferSize := m } := by
  have hle := (passStart_le h he).2
  have htake : (c.buffer.take e).length ≤ c.maxBufferSize :=
    (List.length_take_le' _ _).trans h.fits
  obtain ⟨m, hm, hroom, heq⟩ :=
    copyPieces_eq (c := { c with buffer := c.buffer.take e }) (pieces_short token)
      h.size htake
  refine ⟨m, hm, hroom, ?_⟩
  rw [handleCSRFToken, he]
  dsimp only
  rw [if_pos hle, heq]
  rfl

theorem Bounded.handle (h : Bounded c) (token : Token) :
    ∃ c', handleCSRFToken token c = some c' ∧ Bounded c' ∧ c'.csrfEnd = c'.buffer.length := by
  cases he : passStart c with
  | none => exact ⟨c, by rw [handleCSRFToken, he], h, (passStart_none he).1⟩
  | some e =>
    obtain ⟨m, hm, hroom, heq⟩ := handleCSRFToken_eq token h he
    refine ⟨_, heq, ⟨h.size.trans hm, hroom, fun _ => ⟨?_, le_rfl⟩⟩, rfl⟩
    obtain ⟨hstart, hle⟩ := passStart_le h he
    dsimp only
    rw [gone, List.length_append, List.length_take, min_eq_left hle]
    exact hstart.trans (Nat.le_add_right _ _)

theorem Bounded.clear (h : Bounded c) : Bounded (clear c) :=
  ⟨h.size, Nat.zero_le _, fun hzero => absurd rfl hzero⟩

theorem Bounded.finish (h : Bounded c) : Bounded (finish c) := by
  rw [CsrfToken.finish]
  split
  · exact h.clear
  · exact h

theorem Bounded.startWait (h : Bounded c) (now : Int) : Bounded (startWait now c) := by
  rw [CsrfToken.startWait]
  split
  · exact ⟨h.size, h.fits, h.marked⟩
  · exact h

/-- Nothing that belongs to the response has changed. -/
structure Kept (c c' : Conn) : Prop where
  buffer : c'.buffer = c.buffer
  start : c'.bufferStart = c.bufferStart
  passed : c'.csrfEnd = c.csrfEnd
  sent : c'.sent = c.sent

theorem startWait_kept (now : Int) (c : Conn) : Kept c (startWait now c) := by
  rw [startWait]
  split <;> exact ⟨rfl, rfl, rfl, rfl⟩

theorem Bounded.send (h : Bounded c) (hend : c.csrfEnd = c.buffer.length) (now : Int)
    (outcome : Outcome) : Bounded (sendPending now outcome c) := by
  have hwait := h.startWait now
  have hpass : Bounded (passWait now (CsrfToken.startWait now c)) :=
    ⟨hwait.size, hwait.fits, hwait.marked⟩
  cases outcome with
  | wrote count =>
    refine Bounded.finish ⟨hwait.size, hwait.fits, fun _ => ?_⟩
    have hstart := h.start_le
    have hkept := startWait_kept now c
    dsimp only
    rw [hkept.buffer, hkept.start, hkept.passed]
    omega
  | blocked =>
    rw [sendPending]
    split
    · exact hpass.clear
    · exact hpass
  | failed => exact hpass.clear

theorem reqFlush_eq {c' : Conn} {now : Int} {outcome : Outcome}
    (h : handleCSRFToken token c = some c') (hlt : c'.bufferStart < c'.buffer.length) :
    reqFlush token now outcome c = some (sendPending now outcome c') := by
  rw [reqFlush, h, Option.bind_some, if_neg (by omega), if_pos hlt]

/-- A flush keeps to the buffer. -/
theorem Bounded.flush (h : Bounded c) (token : Token) (now : Int) (outcome : Outcome) :
    ∃ c', reqFlush token now outcome c = some c' ∧ Bounded c' := by
  obtain ⟨c₁, heq, h₁, hend⟩ := h.handle token
  rw [reqFlush, heq, Option.bind_some, if_neg (not_lt.mpr h₁.start_le)]
  split
  · exact ⟨_, rfl, h₁.send hend now outcome⟩
  · exact ⟨_, rfl, h₁.finish⟩

theorem Bounded.write (h : Bounded c) (text : Bytes) :
    ∃ c', boaWrite text c = some c' ∧ Bounded c' := by
  obtain ⟨m, hm, hroom, heq⟩ := boaWrite_eq h text
  refine ⟨_, heq, h.size.trans hm, hroom, fun hzero => ?_⟩
  have hmarked := h.marked hzero
  dsimp only
  rw [List.length_append]
  exact ⟨hmarked.1, hmarked.2.trans (Nat.le_add_right _ _)⟩

end CsrfToken
