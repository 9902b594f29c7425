import BoaGateway.Logline
import BoaGateway.Paths

/-!
# From the request line to a file

`translate_uri` with `unescape_uri` and `clean_pathname`. Home directories, virtual hosts
and MIME types come from files that are parameters here, and a script alias is handed on.
A path that does not fit the buffer of `translate_uri` has no result.
-/

namespace TranslateUri

open ByteBlocks Texts Logline

inductive AliasType where
  | scriptAlias
  | alias
  | redirect
  deriving DecidableEq

structure Alias where
  fakename : Bytes
  realname : Bytes
  type : AliasType

structure Config where
  aliasHashtable : Nat → List Alias
  userDir : Option Bytes
  getHomeDir : Bytes → Option Bytes
  virtualhost : Bool
  getVirtualHost : Bytes → Option Bytes
  documentRoot : Bytes
  getMimeType : Bytes → Bytes

/-- What `translate_uri` reads of a request. -/
structure Request where
  line : Line
  host : Option Bytes
  localIpAddr : Option Bytes

inductive Cgi where
  | cgi
  | nph
  deriving DecidableEq

/-- What `translate_uri` writes into a request that goes on. -/
structure Translated where
  requestUri : Bytes
  queryString : Option Bytes
  pathname : Bytes
  isCgi : Option Cgi
  scriptName : Option Bytes
  deriving DecidableEq

inductive Translation where
  | refused
  | scriptAlias (current : Alias) (isNph : Bool)
  | alias (t : Translated)
  | userDir (t : Translated)
  | documentRoot (docroot : Bytes) (t : Translated)

def questionMark : UInt8 := 63

def toLower (c : UInt8) : UInt8 := if 65 ≤ c ∧ c ≤ 90 then c + 32 else c

/-- The path behind the host of an absolute URI. -/
def behindHost (scheme uri : Bytes) : Option Bytes :=
  if (uri.take scheme.length).map toLower = scheme then
    match (uri.drop scheme.length).dropWhile fun c => c != slash with
    | [] => none
    | path => some path
  else none

def requestPath (uri : Bytes) : Bytes :=
  match behindHost (ascii "http://") uri with
  | some path => path
  | none => (behindHost (ascii "https://") uri).getD uri

/-- A digit in `HEX_TO_DECIMAL`, where a `char` is signed. -/
def hexDigit (c : UInt8) : UInt8 := if 65 ≤ c ∧ c < 128 then (c &&& 0xdf) - 65 + 10 else c - 48

def hexToDecimal (c d : UInt8) : UInt8 := hexDigit c * 16 + hexDigit d

/-- The second loop of `unescape_uri`. -/
def unescapeLoop : Bytes → Option Bytes
  | [] => some []
  | x :: s =>
    if x = 37 then
      match s with
      | c :: d :: t => (unescapeLoop t).map (hexToDecimal c d :: ·)
      | _ => none
    else (unescapeLoop s).map (x :: ·)

/-- `unescape_uri`: what stands before the first carriage return or line feed is not decoded,
and without one nothing is. A zero byte that is decoded ends the text. -/
def unescapeUri (uri : Bytes) : Option Bytes :=
  let before := uri.takeWhile fun c => c != 13 && c != 10
  (unescapeLoop (uri.drop before.length)).map fun s => cstr (before ++ s)

/-- One round of the inner loop of `clean_pathname`. -/
def skipRound (s : Bytes) : Option Bytes :=
  if [slash].isPrefixOf s then some (s.drop 1)
  else if (ascii "./").isPrefixOf s then some (s.drop 2)
  else if (ascii "../").isPrefixOf s then some (s.drop 3)
  else none

theorem skipRound_length {s t : Bytes} (h : skipRound s = some t) : t.length < s.length := by
  have hdrop : ∀ (q : Bytes) (n : Nat), 0 < n → q ≠ [] → q.isPrefixOf s = true →
      (s.drop n).length < s.length := by
    intro q n hn hq hpre
    have hs := (List.isPrefixOf_iff_prefix.mp hpre).length_le
    have hpos := List.length_pos_iff.mpr hq
    rw [List.length_drop]
    omega
  unfold skipRound at h
  split at h
  · cases h
    exact hdrop [slash] 1 (by decide) (by decide) ‹_›
  split at h
  · cases h
    exact hdrop (ascii "./") 2 (by decide) (by decide) ‹_›
  split at h
  · cases h
    exact hdrop (ascii "../") 3 (by decide) (by decide) ‹_›
  · cases h

/-- The inner loop of `clean_pathname`. -/
def skipDots (s : Bytes) : Bytes :=
  match _h : skipRound s with
  | some t => skipDots t
  | none => s
termination_by s.length
decreasing_by exact skipRound_length _h

theorem skipDots_length_le (s : Bytes) : (skipDots s).length ≤ s.length := by
  fun_induction skipDots s with
  | case1 s t hround ih => exact ih.trans (skipRound_length hround).le
  | case2 s hround => exact le_rfl

/-- The outer loop of `clean_pathname`. -/
def cleanLoop (cgiarg : Bool) : Bytes → Bytes
  | [] => []
  | c :: s =>
    if c = slash ∧ cgiarg = false then slash :: cleanLoop cgiarg (skipDots s)
    else c :: cleanLoop (cgiarg || c == questionMark) s
termination_by s => s.length
decreasing_by
  · exact Nat.lt_succ_of_le (skipDots_length_le s)
  · exact Nat.lt_succ_self _

def cleanPathname (pathname : Bytes) : Bytes := cleanLoop false pathname

/-- The loop that looks for a script that parses its own headers. -/
def nphLoop (isNph : Bool) : Bytes → Bool
  | [] => isNph
  | c :: s =>
    if c = questionMark then isNph
    else nphLoop (if c = slash then (ascii "nph-").isPrefixOf s else isNph) s

def pathPart (uri : Bytes) : Bytes := uri.takeWhile fun c => c != questionMark

def queryPart (uri : Bytes) : Option Bytes :=
  match uri.dropWhile fun c => c != questionMark with
  | [] => none
  | _ :: query => some query

/-- `get_alias_hash_value`, for a text that is not empty. -/
def getAliasHashValue (file : Bytes) : Nat :=
  let letters := file.take 1 ++ file.tail.takeWhile fun c => c != slash
  (letters.map UInt8.toNat).sum % 17

/-- The loop over a chain of the alias table: the alias that applies. -/
def findAlias (uri : Bytes) : List Alias → Option Alias
  | [] => none
  | current :: rest =>
    if current.fakename.isPrefixOf uri then
      if current.fakename.getLast? ≠ some slash ∧
          (uri[current.fakename.length]?).any (fun c => c != slash) then none
      else some current
    else findAlias uri rest

/-- `sprintf` into `buffer`. -/
def sprintfBuffer (s : Bytes) : Option Bytes :=
  if s.length ≤ 2 * maxHeaderLength then some s else none

def chooseRoot (cfg : Config) (req : Request) : Bytes :=
  if cfg.virtualhost then
    match req.host.bind cfg.getVirtualHost with
    | some docroot => docroot
    | none => (req.localIpAddr.bind cfg.getVirtualHost).getD cfg.documentRoot
  else cfg.documentRoot

/-- The end of `translate_uri`, for a file that is named. -/
def serveFile (cfg : Config) (req : Request) (uri : Bytes) (query : Option Bytes) (isNph : Bool)
    (pathname : Bytes) : Option Translated :=
  if contains uri (ascii "share.js") || contains uri (ascii "adminMenu.js") ||
      contains uri (ascii "userMenu.js") then
    some ⟨uri, query, pathname, some .cgi, some uri⟩
  else if cfg.getMimeType pathname = ascii "application/x-httpd-cgi" then
    some ⟨uri, query, pathname, some (if isNph then .nph else .cgi), some uri⟩
  else if req.line.method = .post then none
  else some ⟨uri, query, pathname, none, none⟩

/-- The branch for the directory of a user. -/
def translateUserDir (cfg : Config) (req : Request) (uri : Bytes) (query : Option Bytes)
    (isNph : Bool) (userDir : Bytes) : Option Translation :=
  let p := (uri.drop 2).dropWhile fun c => c != slash
  match cfg.getHomeDir ((uri.drop 2).takeWhile fun c => c != slash) with
  | none => some .refused
  | some home =>
    if maxHeaderLength < home.length + 1 + userDir.length + p.length then some .refused
    else
      match serveFile cfg req uri query isNph (home ++ slash :: userDir ++ p) with
      | none => some .refused
      | some t => some (.userDir t)

/-- The branch for the document root. -/
def translateRoot (cfg : Config) (req : Request) (uri : Bytes) (query : Option Bytes)
    (isNph : Bool) : Option Translation :=
  (sprintfBuffer (chooseRoot cfg req ++ uri)).map fun pathname =>
    match serveFile cfg req uri query isNph pathname with
    | none => .refused
    | some t => .documentRoot (chooseRoot cfg req) t

/-- `translate_uri` behind the query string. -/
def translatePath (cfg : Config) (req : Request) (uri : Bytes) (query : Option Bytes)
    (isNph : Bool) : Option Translation :=
  match findAlias uri (cfg.aliasHashtable (getAliasHashValue uri)) with
  | some current =>
    if current.type = .scriptAlias then some (.scriptAlias current isNph)
    else
      (sprintfBuffer (current.realname ++ uri.drop current.fakename.length)).map fun buffer =>
        if current.type = .redirect then .refused
        else .alias ⟨uri, query, buffer, none, none⟩
  | none =>
    match cfg.userDir, uri.tail.head? with
    | some userDir, some 126 => translateUserDir cfg req uri query isNph userDir
    | _, _ => translateRoot cfg req uri query isNph

/-- `translate_uri` behind the call of `clean_pathname`. -/
def translateCleaned (cfg : Config) (req : Request) (uri : Bytes) : Option Translation :=
  if uri.head? = some slash then
    translatePath cfg req (pathPart uri) (queryPart uri) (nphLoop false uri)
  else some .refused

/-- `translate_uri`. -/
def translateUri (cfg : Config) (req : Request) : Option Translation :=
  if requestPath req.line.requestUri = ascii "/admentor/admin/" then some .refused
  else
    match unescapeUri (requestPath req.line.requestUri) with
    | none => some .refused
    | some uri => translateCleaned cfg req (cleanPathname uri)

end TranslateUri
