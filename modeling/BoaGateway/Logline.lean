import Mathlib.Data.List.Find
import BoaGateway.MibValue
import BoaGateway.Texts

/-!
# The request line

`request_type` and `process_logline`. The line is the text from the start of the stream to
its end, where a zero byte has been put; a zero byte inside ends it early. What a refused
line is answered is always a bad request, without a body if the method is known to be HEAD.
-/

namespace Logline

open ByteBlocks Texts MibValue

def maxHeaderLength : Nat := 1024

inductive Method where
  | get
  | post
  | head
  deriving DecidableEq

inductive RequestType where
  | method (m : Method)
  | short
  | invalid
  deriving DecidableEq

def requestTypes : List (Bytes × Method) :=
  [(ascii "GET ", .get), (ascii "POST ", .post), (ascii "HEAD ", .head)]

/-- `request_type`, with the number of bytes that have been received. -/
def requestType (stream : Bytes) (pos : Nat) : RequestType :=
  match requestTypes.find? fun t => decide (t.1.length ≤ pos) && t.1.isPrefixOf stream with
  | some t => .method t.2
  | none => if requestTypes.any fun t => decide (pos < t.1.length) then .short else .invalid

/-- `%d` of `sscanf`. -/
def scanInt (s : Bytes) : Option (Int × Bytes) :=
  let t := s.dropWhile isSpace
  let u := if t.head? == some 45 || t.head? == some 43 then t.tail else t
  let isDigit := fun c : UInt8 => decide (48 ≤ c ∧ c ≤ 57)
  if u.takeWhile isDigit = [] then none else some (strtol 10 s, u.dropWhile isDigit)

/-- `sscanf` with `HTTP/%d.%d` reads two numbers, and the first one is positive. -/
def httpVersionOk (s : Bytes) : Bool :=
  if (ascii "HTTP/").isPrefixOf s then
    match scanInt (s.drop 5) with
    | none => false
    | some (p1, t) =>
      t.head? == some 46 && (scanInt t.tail).isSome && decide (1 ≤ p1)
  else false

/-- What is kept of a request line. -/
structure Line where
  method : Method
  requestUri : Bytes
  httpVersion : Bytes
  simple : Bool
  deriving DecidableEq

/-- An error page, which comes without a body (`head`) or without a header (`simple`). The
second one shows the URI, when there is one. -/
inductive ErrorPage where
  | badRequest (head simple : Bool)
  | tooLarge (head simple : Bool) (uri : Option Bytes)
  deriving DecidableEq

/-- The rest of `process_logline`, behind the method and the blanks. -/
def loglineRest (method : Method) (stop : Bytes) : Except ErrorPage Line :=
  let uri := stop.takeWhile fun c => c != 32
  let isHead := decide (method = .head)
  if maxHeaderLength < uri.length then .error (.badRequest isHead false)
  else
    match stop.dropWhile fun c => c != 32 with
    | [] =>
      if isHead then .error (.badRequest true true) else .ok ⟨method, uri, ascii "HTTP/0.9", true⟩
    | _ :: version =>
      if httpVersionOk version then .ok ⟨method, uri, version, false⟩
      else .error (.badRequest isHead false)

/-- `process_logline`. -/
def processLogline (line : Bytes) (pos : Nat) : Except ErrorPage Line :=
  match requestType line pos with
  | .method m =>
    let stop := (cstr line).drop (if m = .get then 4 else 5)
    loglineRest m (stop.dropWhile fun c => c == 32)
  | _ => .error (.badRequest false false)

/-- The method of a line that is complete does not depend on what follows. -/
theorem find_method (line : Bytes) {pos : Nat} (hpos : line.length ≤ pos) :
    (requestTypes.find? fun t => decide (t.1.length ≤ pos) && t.1.isPrefixOf line) =
      requestTypes.find? fun t => t.1.isPrefixOf line := by
  refine List.find?_congr fun t _ => ?_
  cases hpre : t.1.isPrefixOf line with
  | false => rw [Bool.and_false]
  | true =>
    have hlen := (List.isPrefixOf_iff_prefix.mp hpre).length_le
    rw [decide_eq_true (hlen.trans hpos), Bool.and_true]

theorem processLogline_pos (line : Bytes) {pos : Nat} (hpos : line.length ≤ pos) :
    processLogline line pos = processLogline line line.length := by
  have hfind := (find_method line hpos).trans (find_method line le_rfl).symm
  unfold processLogline requestType
  rw [hfind]
  cases requestTypes.find? fun t => decide (t.1.length ≤ line.length) && t.1.isPrefixOf line with
  | some t => rfl
  | none =>
    -- a short line and an invalid one are answered alike
    dsimp only
    split_ifs
    · rfl
    · rfl
    · rfl
    · rfl

end Logline
