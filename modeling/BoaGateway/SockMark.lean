import BoaGateway.TextFiles
import BoaGateway.Texts

/-!
# Socket marks of interfaces

The registry of `subr_sockmark.c`: a text file with one line for each interface, which holds
its mark and its two reference counts. Every call runs under the lock file, and its file
operations succeed. A result is missing when a name does not fit into its array, or when a
line that cannot be read is written again.
-/

namespace SockMark

open ByteBlocks MibValue TextFiles Texts

def wanmarkTypeApp : UInt32 := 2

def isApp (type : UInt32) : Bool := type &&& wanmarkTypeApp != 0

def sockMarkWanIndexStart : Nat := 13
def sockMarkWanIndexBitMask : Nat := (2 ^ 6 - 1) <<< sockMarkWanIndexStart
def wanPolicyRouteTblidStart : Int := 0x200

/-- One line of the file. -/
structure MarkLine where
  ifname : Bytes
  sockmark : Nat
  tblid : Int
  refcnt : Int
  refcnt2 : Int
  type : UInt32
  deriving DecidableEq

/-- The `fprintf` of the four functions that write a line. -/
def MarkLine.text (e : MarkLine) : Bytes :=
  ascii "ifname=" ++ (e.ifname ++ (ascii " sockmark=0x" ++ (numeral 16 e.sockmark ++
    (ascii " tblid=" ++ (intText e.tblid ++ (ascii " refcnt=" ++ (intText e.refcnt ++
      (ascii " refcnt2=" ++ (intText e.refcnt2 ++ (ascii " type=0x" ++
        (numeral 16 e.type.toNat ++ [newline])))))))))))

/-- The `sscanf`, if all six values are read. -/
def scanFields (line : Bytes) : Option MarkLine := do
  let s ← scanText (ascii "ifname=") line
  let (ifname, s) ← scanString s
  let s ← scanText (ascii "sockmark=0x") (skipSpace s)
  let (sockmark, s) ← scanHex s
  let s ← scanText (ascii "tblid=") (skipSpace s)
  let (tblid, s) ← scanInt s
  let s ← scanText (ascii "refcnt=") (skipSpace s)
  let (refcnt, s) ← scanInt s
  let s ← scanText (ascii "refcnt2=") (skipSpace s)
  let (refcnt2, s) ← scanInt s
  let s ← scanText (ascii "type=0x") (skipSpace s)
  let (type, _) ← scanHex s
  pure ⟨ifname, sockmark, tblid, refcnt, refcnt2, UInt32.ofNat type⟩

/-- The name of a line fits into an array of 64 bytes. -/
def nameFits (line : Bytes) : Bool :=
  match (scanText (ascii "ifname=") line).bind scanString with
  | none => true
  | some (ifname, _) => ifname.length < 64

def scanLine (line : Bytes) : Option (Option MarkLine) :=
  if nameFits line then some (scanFields line) else none

/-- The lines that `fgets` reads into an array of 1024 bytes. -/
def fileLines (file : Bytes) : List Bytes := fgetsLines 1022 [] file

def checkLines (mark : Nat) : List Bytes → Option Bool
  | [] => some false
  | line :: lines =>
    match scanLine line with
    | none => none
    | some none => checkLines mark lines
    | some (some e) => if mark = e.sockmark then some true else checkLines mark lines

def rtkWanSockmarkCheck (file : Bytes) (mark : Nat) : Option Bool :=
  if mark &&& sockMarkWanIndexBitMask = 0 then some false else checkLines mark (fileLines file)

/-- The loop of `rtk_wan_sockmark_get_available`, for so many marks. -/
def availableFrom (file : Bytes) : Nat → Nat → Option Nat
  | 0, _ => some 0
  | n + 1, mark =>
    match rtkWanSockmarkCheck file mark with
    | none => none
    | some true => availableFrom file n (mark + 1 <<< sockMarkWanIndexStart)
    | some false => some mark

def rtkWanSockmarkGetAvailable (file : Bytes) : Option Nat :=
  availableFrom file 63 (1 <<< sockMarkWanIndexStart)

/-- All lines, if they can be written again. -/
def readLines (file : Bytes) : Option (List MarkLine) :=
  (fileLines file).mapM fun line => (scanLine line).join

/-- An `int` has 32 bits. -/
def wrapInt (z : Int) : Int := z.bmod (2 ^ 32)

def incLine (type : UInt32) (e : MarkLine) : MarkLine :=
  if isApp type then { e with refcnt2 := wrapInt (e.refcnt2 + 1), type := e.type ||| type }
  else { e with refcnt := wrapInt (e.refcnt + 1), type := e.type ||| type }

/-- `rtk_wan_sockmark_inc_refcnt`: the file, and the mark if the name is there. -/
def rtkWanSockmarkIncRefcnt (file ifname : Bytes) (type : UInt32) :
    Option (Bytes × Option Nat) :=
  (readLines file).map fun es =>
    (es.flatMap fun e => (if e.ifname = ifname then incLine type e else e).text,
      (es.filter fun e => e.ifname = ifname).getLast?.map MarkLine.sockmark)

def decLine (type : UInt32) (e : MarkLine) : MarkLine :=
  if isApp type then
    let refcnt2 := if e.refcnt2 - 1 < 0 then 0 else e.refcnt2 - 1
    { e with refcnt2 := refcnt2, type := if refcnt2 ≤ 0 then e.type &&& ~~~type else e.type }
  else
    let refcnt := if e.refcnt - 1 < 0 then 0 else e.refcnt - 1
    { e with refcnt := refcnt, type := if refcnt ≤ 0 then e.type &&& ~~~type else e.type }

/-- The name has no references any more. -/
def MarkLine.isUnused (e : MarkLine) : Bool := wrapInt (e.refcnt + e.refcnt2) ≤ 0

/-- `rtk_wan_sockmark_dec_refcnt`. -/
def rtkWanSockmarkDecRefcnt (file ifname : Bytes) (type : UInt32) : Option (Bytes × Int) :=
  (readLines file).map fun es =>
    (es.flatMap fun e =>
      if e.ifname = ifname then
        if (decLine type e).isUnused then [] else (decLine type e).text
      else e.text,
      match (es.filter fun e => e.ifname = ifname).getLast? with
      | none => 1
      | some e => if (decLine type e).isUnused then 0 else 1)

/-- `rtk_wan_sockmark_create`: the file, and the mark if there is one. -/
def rtkWanSockmarkCreate (file ifname : Bytes) (type : UInt32) : Option (Bytes × Option Nat) :=
  match rtkWanSockmarkGetAvailable file with
  | none => none
  | some sockmark =>
    if sockmark ≤ 0 then some (file, none)
    else
      let e : MarkLine :=
        { ifname := ifname
          sockmark := sockmark
          tblid := wanPolicyRouteTblidStart + (sockmark >>> sockMarkWanIndexStart : Nat) - 1
          refcnt := if isApp type then 0 else 1
          refcnt2 := if isApp type then 1 else 0
          type := type }
      some (file ++ e.text, some sockmark)

/-- `rtk_wan_sockmark_remove`. -/
def rtkWanSockmarkRemove (file ifname : Bytes) (type : UInt32) : Option (Bytes × Int) :=
  if ifname = [] then some (file, -1) else rtkWanSockmarkDecRefcnt file ifname type

/-- `rtk_wan_sockmark_add`: the file, and the mark that is reported if the call succeeds. -/
def rtkWanSockmarkAdd (file ifname : Bytes) (type : UInt32) : Option (Bytes × Option Nat) :=
  if ifname = [] then some (file, none)
  else
    match rtkWanSockmarkIncRefcnt file ifname type with
    | none => none
    | some (file, some mark) => some (file, some mark)
    | some (file, none) => rtkWanSockmarkCreate file ifname type

end SockMark
