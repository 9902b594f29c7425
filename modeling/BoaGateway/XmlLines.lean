import Mathlib.Data.List.DropRight
import BoaGateway.TextFiles
import BoaGateway.Texts
import BoaGateway.MibTypes

/-!
# Lines of an XML settings file

A settings file is read line by line and each line is taken apart at its quotes. The file is
checked as a whole before it is loaded, line by line as well, and the check counts the chain
blocks that are open.
-/

namespace XmlLines

open ByteBlocks Texts TextFiles MibValue MibTypes

def maxMibValStrLen : Nat := 65536

def configHeader : Bytes := ascii "<Config_Information_File_8671>"
def configTrailer : Bytes := ascii "</Config_Information_File_8671>"
def configHeaderHs : Bytes := ascii "<Config_Information_File_HS>"
def configTrailerHs : Bytes := ascii "</Config_Information_File_HS>"

def quote : UInt8 := 34

def trimWhiteSpace (s : Bytes) : Bytes := (s.dropWhile isSpace).rdropWhile isSpace

/-- What stands before and behind the character that `strchr` finds. -/
def strchr (s : Bytes) (c : UInt8) : Option (Bytes × Bytes) :=
  if c ∈ s then some (s.takeWhile (· != c), (s.dropWhile (· != c)).tail) else none

/-- What stands before and behind the character that `strrchr` finds. -/
def strrchr (s : Bytes) (c : UInt8) : Option (Bytes × Bytes) :=
  if c ∈ s then some ((s.rdropWhile (· != c)).dropLast, s.rtakeWhile (· != c)) else none

/-- The next token and what is left for the one behind it. -/
def strtok (s : Bytes) (c : UInt8) : Option (Bytes × Bytes) :=
  let s := s.dropWhile (· == c)
  if s = [] then none else some (s.takeWhile (· != c), (s.dropWhile (· != c)).tail)

/-- The second token between quotes. -/
def quotedToken (s : Bytes) : Option (Bytes × Bytes) :=
  match strtok s quote with
  | none => none
  | some (_, s) => strtok s quote

/-- The name in the first pair of quotes, and what stands behind it. -/
def quotedName (s : Bytes) : Option (Bytes × Bytes) :=
  match strchr s quote with
  | none => none
  | some (_, s) => strchr s quote

/-- The value from the next quote to the last one. -/
def quotedValue (s : Bytes) : Option Bytes :=
  match strchr s quote with
  | none => none
  | some (_, pvalue) =>
    match strrchr pvalue quote with
    | none => some []
    | some (value, _) => some value

def isValueLine (s : Bytes) : Bool := (ascii "<Value").isPrefixOf s
def isChainLine (s : Bytes) : Bool := (ascii "<chain").isPrefixOf s
def isChainEnd (s : Bytes) : Bool := (ascii "</chain").isPrefixOf s
def isTrailer (s : Bytes) : Bool := s == configTrailer || s == configTrailerHs

/-- A file that is open: what `fgets` is going to give, and `feof`. -/
structure Stream where
  lines : List Bytes
  eof : Bool

def openFile (content : Bytes) : Stream :=
  { lines := fgetsLines (maxMibValStrLen - 1) [] content, eof := false }

/-- What is left behind a line. Only a last line without its end shows the end of the file. -/
def Stream.behind (line : Bytes) (rest : List Bytes) : Stream where
  lines := rest
  eof := decide (rest = [] ∧ line.getLast? ≠ some newline ∧ line.length < maxMibValStrLen - 1)

/-- The string that was read ends with the end of the line. -/
def endsLine (line : Bytes) : Bool := (cstr line).getLast? == some newline

/-- `get_line`: the next line that is not blank. A line without its end is no line. -/
def getLineOf : List Bytes → Option Bytes × Stream
  | [] => (none, { lines := [], eof := true })
  | line :: rest =>
    if endsLine line then
      let pstr := trimWhiteSpace (cstr line)
      if pstr = [] then getLineOf rest else (some pstr, .behind line rest)
    else (none, .behind line rest)

def getLine (s : Stream) : Option Bytes × Stream := getLineOf s.lines

def xorKey : Bytes := ascii "tecomtec"

def xorEncrypt (content : Bytes) : Bytes :=
  content.mapIdx fun i b => b ^^^ xorKey.getD (i % xorKey.length) 0

/-- A file whose first line that is not blank is no header counts as encrypted. -/
def checkXorEncrypt (content : Bytes) : Bool :=
  match ((fgetsLines 1023 [] content).map fun line => trimWhiteSpace (cstr line)).find?
      (· ≠ []) with
  | none => true
  | some pstr => !(pstr == configHeader || pstr == configHeaderHs)

/-- The text of a file, decrypted if it counts as encrypted. -/
def plainText (content : Bytes) : Bytes :=
  if checkXorEncrypt content then xorEncrypt content else content

/-- The rest of a line behind `<Value Name="`. -/
def checkValue (s : Bytes) : Bool :=
  match strchr s quote with
  | none => false
  | some (_, s) =>
    match scanText (ascii "Value=\"") (skipSpace s) with
    | none => false
    | some s =>
      match strrchr s quote with
      | none => false
      | some (_, s) => skipSpace s == ascii "/>"

/-- The rest of a line behind `<chain chainName="`. -/
def checkChain (s : Bytes) : Bool :=
  match strchr s quote with
  | none => false
  | some (_, s) =>
    match scanText (ascii ">") (skipSpace s) with
    | none => false
    | some s =>
      match scanText (ascii "<!--index=") (skipSpace s) with
      | none => skipSpace s == []
      | some s =>
        match strchr s 45 with
        | none => false
        | some (_, s) => s == ascii "->"

/-- What the check takes a line for. -/
inductive LineKind where
  | value
  | chain
  | chainEnd
  | trailer
  | invalid
  deriving DecidableEq

def lineKind (pbuf : Bytes) : LineKind :=
  match scanText (ascii "<Value Name=\"") pbuf with
  | some s => if checkValue s then .value else .invalid
  | none =>
    match scanText (ascii "<chain chainName=\"") pbuf with
    | some s => if checkChain s then .chain else .invalid
    | none =>
      if (ascii "</chain>").isPrefixOf pbuf then .chainEnd
      else if isTrailer pbuf then .trailer
      else .invalid

/-- The loop over the lines behind the header. For a line that begins with a zero byte it
looks at the byte before its buffer; the look that an empty line makes it take there decides
nothing. -/
def checkLines : List Bytes → Nat → Bool → Option Bool
  | [], _, isEnd => some isEnd
  | line :: rest, chainLevel, isEnd =>
    if cstr line = [] then none
    else if endsLine line then
      let pbuf := trimWhiteSpace (cstr line)
      if pbuf = [] then checkLines rest chainLevel isEnd
      else if isEnd then some false
      else
        match lineKind pbuf with
        | .value => checkLines rest chainLevel isEnd
        | .chain => checkLines rest (chainLevel + 1) isEnd
        | .chainEnd => if chainLevel = 0 then some false else checkLines rest (chainLevel - 1) isEnd
        | .trailer => checkLines rest chainLevel true
        | .invalid => some false
    else some false

/-- The setting that a header stands for. -/
def headerType (pbuf : Bytes) : Option ConfigData :=
  if pbuf = configHeader then some .current
  else if pbuf = configHeaderHs then some .hw
  else none

/-- `checkConfigFile` on a text that is not encrypted; `some none` is the result 0. -/
def checkText (content : Bytes) : Option (Option ConfigData) :=
  match (openFile content).lines with
  | [] => some none
  | line :: rest =>
    if endsLine line then
      match headerType (trimWhiteSpace (cstr line)) with
      | none => some none
      | some status => (checkLines rest 0 false).map fun ok => if ok then some status else none
    else some none

def checkConfigFile (content : Bytes) (checkEnc : Bool) : Option (Option ConfigData) :=
  checkText (if checkEnc then plainText content else content)

end XmlLines
