import BoaGateway.Feeding
import BoaGateway.Logline

/-!
# Reading a header

The state machine of `read_header` and `process_option_line`. The stream is split where the
line that is being read starts, so that the pointers of the program are lengths here. What
lies in memory behind the bytes that were received comes with each piece, as the number of
bytes up to the next zero byte. The build modelled stops connections that would be kept
alive, and has no list of accepted types.
-/

namespace ReadHeader

open ByteBlocks Texts MibValue Logline Feeding

def clientStreamSize : Nat := 4096

def cr : UInt8 := 13
def lf : UInt8 := 10

inductive Status where
  | readHeader
  | oneCr
  | oneLf
  | twoCr
  deriving DecidableEq

/-- The header lines that a request keeps. -/
structure Values where
  ifModifiedSince : Option Bytes
  contentType : Option Bytes
  contentLength : Option Bytes
  host : Option Bytes
  referer : Option Bytes
  authorization : Option Bytes
  userAgent : Option Bytes
  cookie : Option Bytes
  kaStopped : Bool
  cgiEnv : List (Bytes × Bytes)
  deriving DecidableEq

def upperChar (c : UInt8) : UInt8 :=
  if c = 45 then 95 else if 97 ≤ c ∧ c ≤ 122 then c - 32 else c

/-- `to_upper`. -/
def toUpper (s : Bytes) : Bytes := s.map upperChar

/-- `add_cgi_env`: behind the common variables and the method there is room for 24. -/
def addCgiEnv (v : Values) (key value : Bytes) : Values :=
  if 24 ≤ v.cgiEnv.length then v
  else { v with cgiEnv := v.cgiEnv ++ [(ascii "HTTP_" ++ key, value)] }

/-- The branches of `process_option_line`; `true` when the line is eaten. -/
def storeOption (kaMax : Nat) (v : Values) (name value : Bytes) : Values × Bool :=
  if name = ascii "IF_MODIFIED_SINCE" ∧ v.ifModifiedSince = none then
    ({ v with ifModifiedSince := some value }, false)
  else if name = ascii "CONTENT_TYPE" ∧ v.contentType = none then
    ({ v with contentType := some value }, false)
  else if name = ascii "CONTENT_LENGTH" ∧ v.contentLength = none ∧ 0 ≤ atoi value then
    ({ v with contentLength := some value }, false)
  else if name = ascii "HOST" ∧ v.host = none then ({ v with host := some value }, false)
  else if name = ascii "REFERER" ∧ v.referer = none then
    ({ v with referer := some value }, false)
  else if name = ascii "AUTHORIZATION" ∧ v.authorization = none then
    ({ v with authorization := some value }, false)
  else if name = ascii "USER_AGENT" ∧ v.userAgent = none then
    ({ v with userAgent := some value }, false)
  -- only the first six bytes are compared
  else if (ascii "COOKIE").isPrefixOf name ∧ v.cookie = none then
    ({ v with cookie := some value }, false)
  else if name = ascii "CONNECTION" ∧ kaMax ≠ 0 ∧ v.kaStopped = false then
    ({ v with kaStopped := true }, false)
  else (addCgiEnv v name value, true)

/-- `process_option_line`: the values and what stays of the line, or nothing if it is eaten. -/
def processOptionLine (kaMax : Nat) (v : Values) (text : Bytes) : Values × Option Bytes :=
  let name := (cstr text).takeWhile fun c => c != 58
  if (cstr text).length ≤ name.length then (v, some text)
  else
    let value := ((cstr text).drop (name.length + 1)).dropWhile fun c => c == 32 || c == 9
    let (v', eaten) := storeOption kaMax v (toUpper name) value
    (v', if eaten then none else some (toUpper name ++ 0 :: text.drop (name.length + 1)))

/-- The part of a request that depends on the bytes only: the stream in front of the line
that is being read, and this line up to the byte that is looked at. -/
structure Stream where
  status : Status
  before : Bytes
  line : Bytes
  logline : Option Line
  values : Values

/-- The header has ended, or the request is refused. -/
inductive Ended where
  | refused (e : ErrorPage)
  | headerEnd (line : Option Line) (values : Values)
  deriving DecidableEq

def Stream.bytes (s : Stream) : Bytes := s.before ++ s.line

/-- A line has ended: its text, and what is left of its end behind the zero byte. The second
result is the number of bytes that are moved over. -/
def lineEnd (kaMax pos : Nat) (s : Stream) (text newline : Bytes) : Step (Stream × Nat) Ended :=
  match s.logline with
  | none =>
    match processLogline text pos with
    | .error e => .ended (.refused e)
    | .ok l =>
      if l.simple then .ended (.headerEnd (some l) s.values)
      else
        .more ({ s with
          status := .oneLf, before := s.before ++ (text ++ 0 :: newline), line := []
          logline := some l }, 0)
  | some _ =>
    match processOptionLine kaMax s.values text with
    | (v, some kept) =>
      .more ({ s with
        status := .oneLf, before := s.before ++ (kept ++ 0 :: newline), line := [], values := v }, 0)
    | (v, none) =>
      .more ({ s with
        status := .oneLf, before := s.before ++ newline, line := [], values := v }, text.length + 1)

def Stream.go (s : Stream) (status : Status) (c : UInt8) : Step (Stream × Nat) Ended :=
  .more ({ s with status := status, line := s.line ++ [c] }, 0)

/-- One round of the loop. The byte is the last one that the buffer could hold from where it
starts if `last` holds, and then it ends a line. -/
def streamStep (kaMax pos : Nat) (last : Bool) (s : Stream) (c : UInt8) :
    Step (Stream × Nat) Ended :=
  match s.status with
  | .readHeader =>
    if c = cr then s.go .oneCr c
    else if c = lf ∨ last = true then lineEnd kaMax pos s s.line []
    else s.go .readHeader c
  | .oneCr =>
    if c = lf then lineEnd kaMax pos s s.line.dropLast [lf] else s.go .readHeader c
  | .oneLf =>
    if c = cr then s.go .twoCr c
    else if c = lf then .ended (.headerEnd s.logline s.values)
    else s.go .readHeader c
  | .twoCr =>
    if c = lf then .ended (.headerEnd s.logline s.values) else s.go .readHeader c

/-- A request while its header is read, with the start of the buffer of this call. -/
structure Reader extends Stream where
  bufferAt : Nat
  pos : Nat
  restart : Bool

/-- What one `read` returns, and how many bytes there are behind it up to a zero byte. -/
structure Piece where
  bytes : Bytes
  behind : Nat

inductive Outcome where
  | refused (e : ErrorPage)
  | headerEnd (line : Option Line) (values : Values) (unread : Bytes)
  | closed
  | waiting
  deriving DecidableEq

def Reader.step (kaMax : Nat) (r : Reader) (c : UInt8) : Step Reader Ended :=
  let last := decide (r.bytes.length = r.bufferAt + clientStreamSize - 1)
  match streamStep kaMax r.pos last r.toStream c with
  | .ended e => .ended e
  | .more (s, count) =>
    .more { r with toStream := s, pos := r.pos - count, restart := r.restart || count != 0 }

/-- `strlen` of the buffer. -/
def strlenBuffer (s : Bytes) (behind : Nat) : Nat :=
  if (cstr s).length < s.length then (cstr s).length else s.length + behind

/-- The tests behind the loop. -/
def pieceEnd (r : Reader) (behind : Nat) : Option ErrorPage :=
  let head := r.logline.any fun l => l.method == .head
  let uri := r.logline.map fun l => l.requestUri
  let len := strlenBuffer (r.bytes.drop r.bufferAt) behind
  if r.status = .readHeader ∧ requestType r.bytes r.pos = .invalid then
    some (.badRequest head false)
  else if r.restart then none
  else if r.status = .readHeader ∧ clientStreamSize ≤ len then some (.tooLarge head false uri)
  else if r.status = .readHeader ∧ 0 < len then some (.badRequest head false)
  else none

def Reader.receive (r : Reader) (bytes : Bytes) : Reader :=
  { r with bufferAt := r.pos, pos := r.pos + bytes.length, restart := false }

def Ended.outcome (unread : Bytes) : Ended → Outcome
  | .refused e => .refused e
  | .headerEnd line values => .headerEnd line values unread

/-- `read_header` on the pieces that its calls of `read` return. -/
def readHeader (kaMax : Nat) : Reader → List Piece → Outcome
  | _, [] => .waiting
  | r, p :: ps =>
    if p.bytes = [] then .closed
    else
      match feed (Reader.step kaMax) (r.receive p.bytes) p.bytes with
      | .ended e unread => e.outcome (unread ++ ps.flatMap Piece.bytes)
      | .more r' =>
        match pieceEnd r' p.behind with
        | some e => .refused e
        | none => readHeader kaMax r' ps

def noValues : Values where
  ifModifiedSince := none
  contentType := none
  contentLength := none
  host := none
  referer := none
  authorization := none
  userAgent := none
  cookie := none
  kaStopped := false
  cgiEnv := []

/-- A new request, whose connection may be stopped already. -/
def newReader (kaStopped : Bool) : Reader where
  status := .readHeader
  before := []
  line := []
  logline := none
  values := { noValues with kaStopped := kaStopped }
  bufferAt := 0
  pos := 0
  restart := false

end ReadHeader
