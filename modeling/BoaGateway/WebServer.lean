import BoaGateway.AuthAuthorize
import BoaGateway.MibValue
import BoaGateway.RequestRuns

/-!
# The web server

What happens to a request of the web server from the end of its header: authorisation,
the page lists of the two accounts, and the forms for login and logout. The body of a
request may arrive later than its header, so that other requests come in between. The
main loop ends sessions and forgets failed logins, on a counter that an alarm moves on
and that some functions set to the clock of the system.
-/

namespace WebServer

open ByteBlocks Texts MibValue BoaLogin AuthAuthorize

/-- What the build and its configuration fix: the protected directories, the page lists of
the two accounts, and the hash function. -/
structure Setup where
  dirs : List Bytes
  adminWebPageList : List Bytes
  userWebPageList : List Bytes
  sha256 : Bytes → Block 32

/-- The values that a login reads; `none` when reading fails. -/
structure Values where
  userName : Option Bytes
  userPassword : Option Bytes
  suserName : Option Bytes
  suserPassword : Option Bytes
  connectedInterface : Int

/-- The variables of the login form, empty when they are missing. -/
structure Form where
  save : Bytes
  encodeUsername : Bytes
  encodePassword : Bytes
  webCookie : Bytes

inductive PageList where
  | admin
  | user
  deriving DecidableEq

/-- The list for an account. -/
def listFor (name : Bytes) : Option PageList :=
  if name = ascii "root" then some .admin
  else if name = ascii "admin" then some .user
  else none

/-- `checkAdminWhiteListPage`; `true` is the result 0. -/
def checkAdminWhiteListPage (S : Setup) (url : Bytes) : Bool :=
  S.adminWebPageList.any (contains url) || url == [slash]

/-- The loop of `checkUserWhiteListPage`, which follows `host` without a test. -/
def userPagesLoop (url : Bytes) (host : Option Bytes) : List Bytes → Option Bool
  | [] => some false
  | page :: pages =>
    if contains url (ascii "netstat_result.asp") then some true
    else
      match if contains url (ascii "netstat.asp") then
          host.map fun host => contains host (ascii "8080") else some false with
      | none => none
      | some true => some true
      | some false =>
        if contains url page then
          if contains url (ascii "app_mld_snooping.asp") && page == ascii "ping.asp" then
            userPagesLoop url host pages
          else some true
        else userPagesLoop url host pages

/-- `checkUserWhiteListPage`; `true` is the result 0. -/
def checkUserWhiteListPage (S : Setup) (url : Bytes) (host : Option Bytes) : Option Bool :=
  (userPagesLoop url host S.userWebPageList).map fun found => found || url == [slash]

def checkPageList (S : Setup) (req : Request) : Option PageList → Option Bool
  | none => some true
  | some .admin => some (checkAdminWhiteListPage S req.requestUri)
  | some .user => checkUserWhiteListPage S req.requestUri req.host

/-- A page that is neither the login page nor asked for by another page. -/
def typedIn (req : Request) : Bool :=
  contains req.clientStream (ascii ".asp") && !contains req.clientStream (ascii "login.asp") &&
    !contains req.clientStream (ascii "?v=") && req.referer.isNone

/-- The tests of `process_header_end` behind the authorisation. -/
def pageTests (S : Setup) (b : Boa) (req : Request) : Option Bool :=
  if typedIn req then some false
  else (checkPageList S req (listFor b.gLoginUsername)).map fun ok =>
    ok && !(req.queryString.any fun query => contains query (ascii "redirect-url"))

def sha256Admin : Bytes :=
  [0x8c, 0x69, 0x76, 0xe5, 0xb5, 0x41, 0x04, 0x15, 0xbd, 0xe9, 0x08, 0xbd, 0x4d, 0xee, 0x15, 0xdf,
   0xb1, 0x67, 0xa9, 0xc8, 0x73, 0xfc, 0x4b, 0xb8, 0xa8, 0x1f, 0x6f, 0x2a, 0xb4, 0x48, 0xa9, 0x18]

def sha256Root : Bytes :=
  [0x48, 0x13, 0x49, 0x4d, 0x13, 0x7e, 0x16, 0x31, 0xbb, 0xa3, 0x01, 0xd5, 0xac, 0xab, 0x6e, 0x7b,
   0xb7, 0xaa, 0x74, 0xce, 0x11, 0x85, 0xd4, 0x56, 0x56, 0x5e, 0xf5, 0x1d, 0x73, 0x76, 0x77, 0xb2]

theorem sha256Admin_length : sha256Admin.length = 32 := rfl

theorem sha256Root_length : sha256Root.length = 32 := rfl

/-- The loop of `hexStringToBinaryBuf`. -/
def hexBytes : Bytes → Bytes
  | c :: d :: s => UInt8.ofNat (strtoul 16 [c, d]) :: hexBytes s
  | _ => []

/-- `hexStringToBinaryBuf` into 64 bytes that are zero. -/
def hexStringToBinaryBuf (hexStr : Bytes) : Option (Block 64) :=
  if hexStr.length % 2 ≠ 0 then some (Block.zeros 64)
  else (Block.zeros 64).write 0 (hexBytes hexStr)

/-- The account whose name has the hash, or an empty text. -/
def accountOf (buf : Block 64) : Bytes :=
  if buf.1.take 32 = sha256Root then ascii "root"
  else if buf.1.take 32 = sha256Admin then ascii "admin"
  else []

/-- `rtk_util_get_ipv4addr_from_ipv6addr`, for the texts of valid addresses. -/
def ipv4Text (ip : Bytes) : Bytes :=
  if (ascii "::ffff:").isPrefixOf ip && contains ip (ascii ".") then ip.drop 7 else ip

/-- `userLogin` up to the copy of the user name: what `denied` is, or the name. -/
def loginName (v : Values) (f : Form) (ip : Bytes) : Option (Except Nat Bytes) :=
  if f.save = [] then some (.error 10)
  else if f.encodeUsername = [] then some (.error 2)
  else
    match hexStringToBinaryBuf f.encodeUsername with
    | none => none
    | some buf =>
      if accountOf buf = ascii "root" ∧ v.connectedInterface = 0 then
        -- the last three characters of the address
        if (ipv4Text ip).length < 3 then none
        else if (ipv4Text ip).drop ((ipv4Text ip).length - 3) = ascii "254" then
          some (.ok (accountOf buf))
        else some (.error 8)
      else some (.ok (accountOf buf))

/-- The password that goes with the hash of the form, or an empty text. -/
def loginPassword (S : Setup) (f : Form) (password : Bytes) : Option Bytes :=
  (hexStringToBinaryBuf f.encodePassword).map fun buf =>
    if buf.1.take 32 = (S.sha256 password).1 then password else []

/-- The comparison with the accounts of the settings; the result is `priv`. -/
def checkAccount (v : Values) (username password : Bytes) : Except Nat Nat :=
  match v.userName with
  | none => .error 10
  | some usrName =>
    if usrName = username then
      match v.userPassword with
      | none => .error 10
      | some usPasswd => if password = usPasswd then .ok 0 else .error 1
    else
      match v.suserName with
      | none => .error 10
      | some supName =>
        if supName = username then
          match v.suserPassword with
          | none => .error 10
          | some suPasswd => if password = suPasswd then .ok 1 else .error 1
        else .error 2

/-- `userLogin` from the copy of the user name up to `pass_check`. -/
def checkLogin (S : Setup) (v : Values) (f : Form) (username : Bytes) :
    Option (Except Nat Nat) :=
  if username = [] then some (.error 2)
  else if f.encodePassword = [] then some (.error 1)
  else
    match if username = ascii "admin" then v.userPassword else v.suserPassword with
    | none => (hexStringToBinaryBuf f.encodePassword).map fun _ => .error 10
    | some password => (loginPassword S f password).map (checkAccount v username)

def newUser (b : Boa) (req : Request) (username : Bytes) (priv : Nat) : UserInfo where
  priv := priv
  directory := if priv = 0 then ascii "/index_user.html" else ascii "/index.html"
  lastTime := b.timeCounter
  remoteIpAddr := req.remoteIpAddr
  sessionId := []
  name := username

/-- `userLogin` from `pass_check` on. -/
def openSession (b : Boa) (req : Request) (f : Form) (username : Bytes) (priv : Nat) :
    Option (Except Nat Boa) :=
  match searchLoginList b.userLoginList { req with cookie := some f.webCookie } with
  | none => none
  | some found =>
    if 10 ≤ b.userLoginList.length then some (.error 7)
    else
      let users := match found with
        | none => newUser b req username priv :: b.userLoginList
        | some i => b.userLoginList.modify i fun u => { u with lastTime := b.timeCounter }
      some (.ok { b with
        userLoginList := users, errloginList := freeFromErrlogList b.errloginList req })

/-- The entry for another failed login of an address. -/
def countFailure (b : Boa) (req : Request) : List ErrloginEntry :=
  match b.errloginList.findIdx? fun e => e.remoteIpAddr == req.remoteIpAddr with
  | none => ⟨1, b.timeCounter, req.remoteIpAddr⟩ :: b.errloginList
  | some i => b.errloginList.modify i fun e =>
      { e with lastTime := b.timeCounter, loginCount := e.loginCount + 1 }

/-- `setErr_Signal`: a bad password and an unknown user are counted. -/
def loginFailed (b : Boa) (req : Request) (denied : Nat) : Boa :=
  if denied = 1 ∨ denied = 2 then { b with errloginList := countFailure b req } else b

/-- The end of `userLogin`, with `denied`, which is 0 for a success. The value 3 that it gets
after three failures only picks the text of the page. -/
def loginDone (b : Boa) (req : Request) : Except Nat Boa → Nat × Boa
  | .error denied => (denied, loginFailed b req denied)
  | .ok b' => (0, b')

/-- `userLogin`. -/
def userLogin (S : Setup) (b : Boa) (req : Request) (v : Values) (f : Form) :
    Option (Nat × Boa) :=
  match loginName v f req.remoteIpAddr with
  | none => none
  | some (.error denied) => some (loginDone b req (.error denied))
  | some (.ok username) =>
    -- the name is kept before anything is known about the password
    let b₁ := { b with gLoginUsername := username }
    match checkLogin S v f username with
    | none => none
    | some (.error denied) => some (loginDone b₁ req (.error denied))
    | some (.ok priv) => (openSession b₁ req f username priv).map (loginDone b₁ req)

/-- The pages that are not authorised at all. -/
def noAuthPages : List Bytes :=
  ["/admin/lanApConnection.asp", "/admin/wanApConnection.asp",
   "/boaform/admin/formWanApConnection"].map ascii

/-- The form that `handleForm` looks for. -/
def formName (uri : Bytes) : Option Bytes :=
  match strstr uri (ascii "/boaform/admin/") with
  | some ptr => some (ptr.drop 15)
  | none => (strstr uri (ascii "/boaform/")).map (·.drop 9)

def isLogin (req : Request) : Bool := formName req.requestUri == some (ascii "userLogin")

/-- `print_set_cookie`, which `send_r_request_ok` calls for some requests; `random` is the
number it prints when the cookie has no id. -/
def printSetCookie (b : Boa) (now : Int) (req : Request) (random : Bytes) : Option Boa :=
  match req.cookie.elim (some none) getSessionidFromCookie with
  | none => none
  | some id =>
    let b₁ := if id.isNone then { b with timeCounter := now } else b
    match b.userLoginList.findIdx? fun u => u.sameIp req with
    | none => some b₁
    | some i => some { b₁ with
        userLoginList := b.userLoginList.modify i fun u => { u with sessionId := id.getD random } }

/-- The login entry on whose strength a request is let through. -/
def strength (S : Setup) (b : Boa) (req : Request) : Option UserInfo :=
  match S.dirs.find? fun d => d.isPrefixOf req.requestUri with
  | none => none
  | some d =>
    if nameOnly d req.requestUri then none
    else
      match sessionOf b req with
      | some (some i) => b.userLoginList[i]?
      | _ => none

/-- The server, the clock of the system, and the requests whose body is still to come. The
last field is no variable of the program: when an address had its last login failure whose
count is a multiple of the limit. -/
structure Server where
  boa : Boa
  uptime : Int
  pending : List Request
  blocked : Bytes → Option Int

inductive Event where
  /-- The header of a request is complete. -/
  | header (req : Request)
  /-- The response to a pending request begins. -/
  | respond (i : Nat) (random : Bytes)
  /-- A pending login. -/
  | login (i : Nat) (v : Values) (f : Form)
  /-- A pending form that frees the entry of a session. -/
  | logout (i : Nat) (cookie : Option Bytes)
  /-- A pending request ends. -/
  | close (i : Nat)
  | mainLoop
  | second
  | alarm
  /-- A page gets a token that is made from the clock. -/
  | token

/-- What is seen from outside. -/
inductive Output where
  | none
  /-- A request came to the page lists, perhaps on the strength of a login entry; `list` is
  the list that applies. -/
  | page (user : Option UserInfo) (list : Option PageList)
  /-- A request was refused for failed logins, of an address with this `blocked`. -/
  | refused (blocked : Option Int)
  /-- A login was evaluated at some time, for an address with this `blocked`. -/
  | evaluated (now : Int) (blocked : Option Int)

def autoexitTime : Int := 600

/-- `process_header_end` behind `translate_uri`. -/
def header (S : Setup) (s : Server) (req : Request) : Option (Server × Output) :=
  let auth := if noAuthPages.contains req.requestUri then some (true, s.boa)
    else authAuthorize s.boa s.uptime req S.dirs
  match auth with
  | none => none
  | some (false, b) =>
    let refused := (searchErrlogList s.boa.errloginList req).any fun e => errlogRefuses e s.uptime
    some ({ s with boa := b }, if refused then .refused (s.blocked req.remoteIpAddr) else .none)
  | some (true, b) =>
    let user := if noAuthPages.contains req.requestUri then none else strength S s.boa req
    (pageTests S b req).map fun ok =>
      ({ s with boa := b, pending := if ok then s.pending ++ [req] else s.pending },
        if typedIn req then .none else .page user (listFor b.gLoginUsername))

/-- The address has reached the limit with this failure. -/
def reachesLimit (b : Boa) (req : Request) : Bool :=
  (searchErrlogList b.errloginList req).any fun e => (e.loginCount + 1) % maxLoginNum == 0

def login (S : Setup) (s : Server) (req : Request) (v : Values) (f : Form) :
    Option (Server × Output) :=
  (userLogin S s.boa req v f).map fun res =>
    let limit := decide (res.1 = 1 ∨ res.1 = 2) && reachesLimit s.boa req
    ({ s with
        boa := res.2
        blocked := if limit then Function.update s.blocked req.remoteIpAddr (some s.uptime)
          else s.blocked },
      .evaluated s.uptime (s.blocked req.remoteIpAddr))

/-- The main loop ends old sessions and forgets old failures. -/
def mainLoop (b : Boa) : Option Boa :=
  match freeEntries (fun u : UserInfo => decide (autoexitTime < b.timeCounter - u.lastTime))
      b.userLoginList,
    freeEntries (fun e : ErrloginEntry => decide (loginErrWaitTime < b.timeCounter - e.lastTime))
      b.errloginList with
  | some users, some errors => some { b with userLoginList := users, errloginList := errors }
  | _, _ => none

def step (S : Setup) (s : Server) : Event → Option (Server × Output)
  | .header req => header S s req
  | .respond i random =>
    match s.pending[i]? with
    | none => none
    | some req =>
      if (ascii "//").isPrefixOf req.requestUri then
        (printSetCookie s.boa s.uptime req random).map fun b => ({ s with boa := b }, .none)
      else some (s, .none)
  | .login i v f =>
    match s.pending[i]? with
    | none => none
    | some req =>
      if isLogin req then login S { s with pending := s.pending.eraseIdx i } req v f else none
  | .logout i cookie =>
    match s.pending[i]? with
    | none => none
    | some _ =>
      (freeFromLoginList s.boa.userLoginList cookie).map fun res =>
        ({ s with
            boa := { s.boa with userLoginList := res.2 }
            pending := s.pending.eraseIdx i }, .none)
  | .close i => some ({ s with pending := s.pending.eraseIdx i }, .none)
  | .mainLoop => (mainLoop s.boa).map fun b => ({ s with boa := b }, .none)
  | .second => some ({ s with uptime := s.uptime + 1 }, .none)
  | .alarm =>
    if s.boa.timeCounter ≤ s.uptime then
      some ({ s with boa := { s.boa with timeCounter := s.boa.timeCounter + 1 } }, .none)
    else none
  | .token => some ({ s with boa := { s.boa with timeCounter := s.uptime } }, .none)

/-- What a step can do. -/
inductive Stepped (S : Setup) (s : Server) : Event → Server → Output → Prop where
  | header {req : Request} {s' : Server} {o : Output} (h : header S s req = some (s', o)) :
      Stepped S s (.header req) s' o
  | setCookie {i : Nat} {random : Bytes} {req : Request} {b : Boa}
      (h : printSetCookie s.boa s.uptime req random = some b) :
      Stepped S s (.respond i random) { s with boa := b } .none
  | respond (i : Nat) (random : Bytes) : Stepped S s (.respond i random) s .none
  | login {i : Nat} {v : Values} {f : Form} {req : Request} {s' : Server} {o : Output}
      (hreq : s.pending[i]? = some req) (hlogin : isLogin req = true)
      (h : login S { s with pending := s.pending.eraseIdx i } req v f = some (s', o)) :
      Stepped S s (.login i v f) s' o
  | logout {i : Nat} {cookie : Option Bytes} {res : Bool × List UserInfo}
      (h : freeFromLoginList s.boa.userLoginList cookie = some res) :
      Stepped S s (.logout i cookie)
        { s with
          boa := { s.boa with userLoginList := res.2 }
          pending := s.pending.eraseIdx i } .none
  | close (i : Nat) : Stepped S s (.close i) { s with pending := s.pending.eraseIdx i } .none
  | mainLoop {b : Boa} (h : mainLoop s.boa = some b) :
      Stepped S s .mainLoop { s with boa := b } .none
  | second : Stepped S s .second { s with uptime := s.uptime + 1 } .none
  | alarm (hbehind : s.boa.timeCounter ≤ s.uptime) :
      Stepped S s .alarm
        { s with boa := { s.boa with timeCounter := s.boa.timeCounter + 1 } } .none
  | token : Stepped S s .token { s with boa := { s.boa with timeCounter := s.uptime } } .none

theorem step_stepped {S : Setup} {s s' : Server} {e : Event} {o : Output}
    (h : step S s e = some (s', o)) : Stepped S s e s' o := by
  cases e with
  | header req => exact .header h
  | respond i random =>
    rw [step] at h
    split at h
    · cases h
    split at h
    · obtain ⟨b, hcookie, he⟩ := Option.map_eq_some_iff.mp h
      cases he
      exact .setCookie hcookie
    · cases h
      exact .respond i random
  | login i v f =>
    rw [step] at h
    split at h
    · cases h
    · rename_i req hreq
      split at h
      · rename_i hlogin
        exact .login hreq hlogin h
      · cases h
  | logout i cookie =>
    rw [step] at h
    split at h
    · cases h
    · obtain ⟨res, hfree, he⟩ := Option.map_eq_some_iff.mp h
      cases he
      exact .logout hfree
  | close i =>
    cases h
    exact .close i
  | mainLoop =>
    obtain ⟨b, hloop, he⟩ := Option.map_eq_some_iff.mp h
    cases he
    exact .mainLoop hloop
  | second =>
    cases h
    exact .second
  | alarm =>
    rw [step] at h
    split at h
    · rename_i hbehind
      cases h
      exact .alarm hbehind
    · cases h
  | token =>
    cases h
    exact .token

/-- The server when it starts, some time after the system. -/
def start (uptime : Nat) : Server where
  boa := { userLoginList := [], errloginList := [], gLoginUsername := [], timeCounter := 0,
           directoryIndex := none }
  uptime := uptime
  pending := []
  blocked := fun _ => none

/-- All but the failures: who is logged in only shrinks, and the counter is where it was or
at the clock. -/
structure Kept (now : Int) (b b' : Boa) : Prop where
  errors : b'.errloginList = b.errloginList
  username : b'.gLoginUsername = b.gLoginUsername
  time : b'.timeCounter = b.timeCounter ∨ b'.timeCounter = now
  names : ∀ u ∈ b'.userLoginList, ∃ w ∈ b.userLoginList, u.name = w.name

theorem Kept.refl (now : Int) (b : Boa) : Kept now b b :=
  ⟨rfl, rfl, Or.inl rfl, fun u hu => ⟨u, hu, rfl⟩⟩

theorem Kept.setTime {now : Int} {b b' : Boa} (h : Kept now { b with timeCounter := now } b') :
    Kept now b b' := by
  refine ⟨h.errors, h.username, Or.inr ?_, h.names⟩
  rcases h.time with htime | htime
  · exact htime
  · exact htime

/-- Changing one entry but its name keeps the names. -/
theorem names_modify {l : List UserInfo} {i : Nat} {g : UserInfo → UserInfo}
    (hg : ∀ u, (g u).name = u.name) : ∀ u ∈ l.modify i g, ∃ w ∈ l, u.name = w.name := by
  intro u hu
  obtain ⟨k, hk, rfl⟩ := List.mem_iff_getElem.mp hu
  rw [List.length_modify] at hk
  refine ⟨l[k], List.getElem_mem hk, ?_⟩
  rw [List.getElem_modify]
  split
  · exact hg _
  · rfl

theorem authPages_kept {b b' : Boa} {req : Request} {ok : Bool} (now : Int)
    (h : authPages b req = some (ok, b')) : Kept now b b' := by
  unfold authPages at h
  split at h
  · cases h
    exact .refl now b
  split at h
  · cases h
    exact ⟨rfl, rfl, Or.inl rfl, fun u hu => ⟨u, hu, rfl⟩⟩
  · obtain ⟨l, hfree, he⟩ := Option.map_eq_some_iff.mp h
    cases he
    refine ⟨rfl, rfl, Or.inl rfl, fun u hu => ⟨u, ?_, rfl⟩⟩
    rw [freeEntries_eq_filter hfree] at hu
    exact (List.mem_filter.mp hu).1

theorem authDirectory_kept {b b' : Boa} {now : Int} {req : Request} {ok : Bool}
    (h : authDirectory b now req = some (ok, b')) : Kept now b b' := by
  unfold authDirectory at h
  split at h
  · cases h
  · cases h
    exact ⟨rfl, rfl, Or.inr rfl, names_modify fun _ => rfl⟩
  · unfold authNoSession at h
    split at h
    · exact authPages_kept now h
    split at h
    · cases h
      exact (Kept.refl now _).setTime
    · exact (authPages_kept now h).setTime

theorem authAuthorize_kept {b b' : Boa} {now : Int} {req : Request} {dirs : List Bytes}
    {ok : Bool} (h : authAuthorize b now req dirs = some (ok, b')) : Kept now b b' := by
  rw [authAuthorize_eq_find] at h
  split at h
  · cases h
    exact .refl now b
  split at h
  · cases h
  split at h
  · cases h
    exact .refl now b
  · exact authDirectory_kept h

theorem printSetCookie_kept {b b' : Boa} {now : Int} {req : Request} {random : Bytes}
    (h : printSetCookie b now req random = some b') : Kept now b b' := by
  unfold printSetCookie at h
  split at h
  · cases h
  rename_i id hid
  dsimp only at h
  split at h
  · cases h
    split
    · exact (Kept.refl now _).setTime
    · exact .refl now b
  · cases h
    split
    · exact ⟨rfl, rfl, Or.inr rfl, names_modify fun _ => rfl⟩
    · exact ⟨rfl, rfl, Or.inl rfl, names_modify fun _ => rfl⟩

/-- The header of a request leaves the failures, the account that is kept and the clock alone. -/
theorem header_kept {S : Setup} {s s' : Server} {req : Request} {o : Output}
    (h : header S s req = some (s', o)) :
    Kept s.uptime s.boa s'.boa ∧ s'.uptime = s.uptime ∧ s'.blocked = s.blocked := by
  unfold header at h
  have hauth : ∀ {ok b}, (if noAuthPages.contains req.requestUri then some (true, s.boa)
      else authAuthorize s.boa s.uptime req S.dirs) = some (ok, b) →
      Kept s.uptime s.boa b := by
    intro ok b hb
    split at hb
    · cases hb
      exact .refl _ _
    · exact authAuthorize_kept hb
  dsimp only at h
  split at h
  · cases h
  · rename_i hb
    cases h
    exact ⟨hauth hb, rfl, rfl⟩
  · rename_i hb
    obtain ⟨ok, -, he⟩ := Option.map_eq_some_iff.mp h
    cases he
    exact ⟨hauth hb, rfl, rfl⟩

end WebServer
