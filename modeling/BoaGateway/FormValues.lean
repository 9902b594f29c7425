import BoaGateway.CgiParams
import BoaGateway.EscapeText
import BoaGateway.Logline
import BoaGateway.MibTable

/-!
# Values of form variables

`boaGetVar` finds the value of a form variable, copies it through two buffers of a fixed size
and escapes it; `mib_set` and `mib_chain_update` take the escapes away before a value goes to
the server.
-/

namespace FormValues

open ByteBlocks Texts EscapeText CgiParams MibTypes MibTable

def maxQueryTempValSize : Nat := 8192

/-- What `boaGetVar` reads of a request. The body of a POST request is in the temporary file,
which can be mapped. -/
structure FormRequest where
  method : Logline.Method
  postData : Option Bytes
  contentType : Option Bytes
  queryString : Option Bytes

def FormRequest.isMultipart (req : FormRequest) : Bool :=
  req.contentType.any fun t => contains t (ascii "multipart/form-data")

/-- Where `boaGetVar_adv` looks for the value. -/
inductive Source where
  | missing
  | empty
  | text (s : Bytes)
  deriving DecidableEq

def source (req : FormRequest) : Source :=
  if req.method = .post then
    match req.postData.getD [], req.queryString with
    | [], none => .missing
    | [], some query => .text query
    | body, _ => .text body
  else
    match req.queryString with
    | none => .empty
    | some query => .text query

/-- The value that the request's encoding gives a variable. -/
def getcgiparam (req : FormRequest) (s var : Bytes) (index : Int) : Option (Option Bytes) :=
  if req.isMultipart then
    getcgiparamMultipart maxQueryTempValSize (req.contentType.getD []) s var
  else getcgiparamAdv maxQueryTempValSize s var index

/-- What is left in `query_temp_var`. A value of an encoded query is not terminated. -/
def leaveValue (req : FormRequest) (v : Bytes) (queryTempVar : Block maxQueryTempValSize) :
    Option (Block maxQueryTempValSize) :=
  queryTempVar.write 0 (if req.isMultipart then v ++ [0] else v)

/-- The end of `boaGetVar_adv`: the bytes of the buffer that it returns, or the default. -/
def escapeValue (queryTempVar : Block maxQueryTempValSize) (ret : Option Nat) :
    Option (Option Bytes) :=
  if (0 : UInt8) ∈ queryTempVar.1 then
    match ret with
    | none => some none
    | some len =>
      let bufTmp : Block maxQueryTempValSize :=
        ⟨strncpy queryTempVar.1 maxQueryTempValSize, strncpy_length _ _⟩
      match addEscapeStr bufTmp len 0 with
      | none => none
      | some (bufTmp, ret) => (bufTmp.read 0 ret).map fun buf => some buf.1
  else none

/-- `boaGetVar_adv`, with what it leaves in `query_temp_var`. -/
def boaGetVarAdv (req : FormRequest) (var : Bytes) (index : Int)
    (queryTempVar : Block maxQueryTempValSize) :
    Option (Option Bytes × Block maxQueryTempValSize) :=
  match source req with
  | .missing => some (none, queryTempVar)
  | .empty => (escapeValue queryTempVar none).map fun buf => (buf, queryTempVar)
  | .text s =>
    match getcgiparam req s var index with
    | none => none
    | some none => (escapeValue queryTempVar none).map fun buf => (buf, queryTempVar)
    | some (some v) =>
      match leaveValue req v queryTempVar with
      | none => none
      | some queryTempVar =>
        (escapeValue queryTempVar (some v.length)).map fun buf => (buf, queryTempVar)

def boaGetVar (req : FormRequest) (var : Bytes) (queryTempVar : Block maxQueryTempValSize) :
    Option (Option Bytes × Block maxQueryTempValSize) :=
  boaGetVarAdv req var (-1) queryTempVar

/-- `val_str` of `mib_set`: a copy of a text and its zero byte, after `delEscapeStr`. -/
def delEscapeCopy (s : Bytes) : Option Bytes :=
  (delEscapeStr (Block.ofBytes (s ++ [0])) 0 s.length 0).map fun res => res.1.1

/-- The message text of `mib_set`, when `g_del_escapechar` is set. The value's pointer points to
these bytes. -/
def mibSetText {n : Nat} (info : MibTableEntry) (value : Bytes) (mtext : Block n) :
    Option (Block n) :=
  if info.type = .string then
    if (0 : UInt8) ∈ value then
      match delEscapeCopy (cstr value) with
      | none => none
      | some valStr =>
        let len := if strlen value + 1 < info.size then strlen value + 1 else info.size
        mtext.write 0 (valStr.take len)
    else none
  else if info.size ≤ value.length then mtext.write 0 (value.take info.size)
  else none

/-- One round of the loop of `mib_chain_update`. -/
def delEscapeMember {n : Nat} (record : Block n) (m : ChainMember) : Option (Block n) :=
  if m.type = .string then
    let text := record.1.drop m.offset.toNat
    if 0 ≤ m.offset ∧ (0 : UInt8) ∈ text then
      (delEscapeStr record m.offset.toNat (strlen text) 0).map fun res => res.1
    else none
  else some record

/-- The loop of `mib_chain_update` over the members of a record. -/
def delEscapeMembers {n : Nat} (record : Block n) (desc : List ChainMember) : Option (Block n) :=
  desc.foldlM delEscapeMember record

end FormValues
