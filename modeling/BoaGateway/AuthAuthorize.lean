import BoaGateway.BoaLogin

/-!
# Authorisation of a request

`auth_authorize` of `auth.c`. The protected directories are tried in the order of their
list, and the first one that the URI begins with decides. A URI that merely begins with
the name of a directory ends the loop, and is let through. The build modelled is the one
with the general web pages and without the variants of single operators.
-/

namespace AuthAuthorize

open ByteBlocks Texts BoaLogin

def maxLoginNum : Int := 3
def loginErrWaitTime : Int := 60

/-- The pages that are open to everybody. -/
def openPages : List Bytes :=
  ["/admin/login.asp", "/admin/reset.css", "/admin/sk_reset.css", "/admin/common.css",
   "/admin/base.css", "/admin/style.css", "/admin/bootstrap.min.css",
   "/admin/LoginFiles/logo.png", "/admin/LoginFiles/user.png", "/admin/LoginFiles/key.png",
   "/admin/code.asp", "/admin/md5.js", "/admin/rollups/md5.js", "/admin/php-crypt-md5.js",
   "/common.js", "/base64_code.js", "/sha256_code.js", "/admin/code_user.asp",
   "/boaform/admin/userLogin", "/boaform/admin/userLoginMultilang",
   "/admin/LoginFiles/logo.jpg", "/admin/LoginFiles/locker.gif", "/favicon.ico"].map ascii

/-- The URI is one of the literals, or lies in the one directory that is open. -/
def isOpenPage (uri : Bytes) : Bool :=
  (ascii "/graphics/").isPrefixOf uri || openPages.contains uri

/-- `is_except_page`. -/
def isExceptPage (req : Request) : Bool :=
  !(ascii "./").isPrefixOf req.requestUri && req.requestUri.length == 1 && req.referer.isSome

/-- The URI goes on behind the name of the directory, with something that is no slash. -/
def nameOnly (directory uri : Bytes) : Bool :=
  directory.getLast? != some slash &&
    match uri[directory.length]? with
    | none => false
    | some c => c != slash

/-- Too many failed logins, and the last one not long ago. -/
def errlogRefuses (e : ErrloginEntry) (now : Int) : Bool :=
  e.loginCount % maxLoginNum == 0 && decide (now - e.lastTime ≤ loginErrWaitTime)

/-- A client without a session gets the open pages, and the login page instead of others. -/
def authPages (b : Boa) (req : Request) : Option (Bool × Boa) :=
  if isOpenPage req.requestUri then some (true, b)
  else if req.requestUri = [slash] then some (false, { b with directoryIndex := none })
  else (freeFromLoginListByIp b.userLoginList req).map fun l =>
    (false, { b with directoryIndex := none, userLoginList := l })

def authNoSession (b : Boa) (now : Int) (req : Request) : Option (Bool × Boa) :=
  match searchErrlogList b.errloginList req with
  | none => authPages b req
  | some e =>
    if errlogRefuses e now then some (false, { b with timeCounter := now })
    else authPages { b with timeCounter := now } req

def authSession (b : Boa) (now : Int) (i : Nat) : Boa :=
  { b with
    directoryIndex := (b.userLoginList[i]?).map (·.directory)
    timeCounter := now
    userLoginList := b.userLoginList.modify i fun u => { u with lastTime := now } }

/-- The entry on whose strength a request is let through. -/
def sessionOf (b : Boa) (req : Request) : Option (Option Nat) :=
  (searchLoginList b.userLoginList req).map fun found =>
    if req.cookie.isSome || isExceptPage req then found else none

/-- What the loop does for the directory that decides. -/
def authDirectory (b : Boa) (now : Int) (req : Request) : Option (Bool × Boa) :=
  match sessionOf b req with
  | none => none
  | some (some i) => some (true, authSession b now i)
  | some none => authNoSession b now req

/-- `auth_authorize`. The byte before the name is read when the name is empty. -/
def authAuthorize (b : Boa) (now : Int) (req : Request) : List Bytes → Option (Bool × Boa)
  | [] => some (true, b)
  | directory :: rest =>
    if directory.isPrefixOf req.requestUri then
      if directory = [] then none
      else if nameOnly directory req.requestUri then some (true, b)
      else authDirectory b now req
    else authAuthorize b now req rest

/-- The first directory that the URI begins with is the name of a directory only. -/
def MerelyBegins (dirs : List Bytes) (uri : Bytes) : Prop :=
  ∃ d, dirs.find? (fun d => d.isPrefixOf uri) = some d ∧ nameOnly d uri = true

/-- A live entry of the client's address, which goes with the id in its cookie, or with its
request for the start page. -/
def HasSession (b : Boa) (req : Request) : Prop :=
  ∃ u ∈ b.userLoginList, u.remoteIpAddr = req.remoteIpAddr ∧
    ((∃ cookie, req.cookie = some cookie ∧ sessionidText cookie ≠ [] ∧
        (u.sessionId = sessionidText cookie ∨ u.sessionId = [])) ∨
      (req.cookie = none ∧ req.referer ≠ none ∧ req.requestUri.length = 1))

/-- The loop ends at the first directory that the URI begins with. -/
theorem authAuthorize_eq_find (b : Boa) (now : Int) (req : Request) (dirs : List Bytes) :
    authAuthorize b now req dirs =
      match dirs.find? fun d => d.isPrefixOf req.requestUri with
      | none => some (true, b)
      | some d =>
        if d = [] then none
        else if nameOnly d req.requestUri then some (true, b) else authDirectory b now req := by
  induction dirs with
  | nil => rfl
  | cons d dirs ih =>
    rw [authAuthorize, List.find?_cons]
    by_cases hpre : d.isPrefixOf req.requestUri = true
    · simp only [hpre, if_true]
    · simp only [hpre]
      exact ih

theorem authPages_true {b b' : Boa} {req : Request} (h : authPages b req = some (true, b')) :
    isOpenPage req.requestUri = true := by
  unfold authPages at h
  split at h
  · assumption
  split at h
  · cases h
  · obtain ⟨l, -, he⟩ := Option.map_eq_some_iff.mp h
    cases he

theorem authNoSession_true {b b' : Boa} {now : Int} {req : Request}
    (h : authNoSession b now req = some (true, b')) : isOpenPage req.requestUri = true := by
  unfold authNoSession at h
  split at h
  · exact authPages_true h
  split at h
  · cases h
  · exact authPages_true h

theorem sessionOf_eq_some {b : Boa} {req : Request} {i : Nat}
    (h : sessionOf b req = some (some i)) :
    searchLoginList b.userLoginList req = some (some i) ∧
      (req.cookie.isSome || isExceptPage req) = true := by
  obtain ⟨found, hsearch, he⟩ := Option.map_eq_some_iff.mp h
  split at he
  · rename_i hguard
    rw [he] at hsearch
    exact ⟨hsearch, hguard⟩
  · cases he

/-- An entry that lets a request through is a session of the client. -/
theorem hasSession_of_sessionOf {b : Boa} {req : Request} {i : Nat}
    (h : sessionOf b req = some (some i)) : HasSession b req := by
  obtain ⟨hsearch, hguard⟩ := sessionOf_eq_some h
  obtain ⟨u, hu, hip, hcookie⟩ := searchLoginList_spec hsearch
  refine ⟨u, List.mem_of_getElem? hu, hip, ?_⟩
  cases hc : req.cookie with
  | some cookie => exact Or.inl ⟨cookie, rfl, hcookie cookie hc⟩
  | none =>
    rw [hc] at hguard
    simp only [isExceptPage, Option.isSome_none, Bool.false_or, Bool.and_eq_true] at hguard
    obtain ⟨⟨-, hlen⟩, href⟩ := hguard
    exact Or.inr ⟨rfl, Option.isSome_iff_ne_none.mp href, by simpa using hlen⟩

theorem authDirectory_true {b b' : Boa} {now : Int} {req : Request}
    (h : authDirectory b now req = some (true, b')) :
    isOpenPage req.requestUri = true ∨ HasSession b req := by
  unfold authDirectory at h
  split at h
  · cases h
  · rename_i hsession
    exact Or.inr (hasSession_of_sessionOf hsession)
  · exact Or.inl (authNoSession_true h)

/-- With the root directory protected, every URI is decided by some directory. -/
theorem find_directory {dirs : List Bytes} {uri : Bytes} (hroot : [slash] ∈ dirs)
    (huri : uri.head? = some slash) : ∃ d, dirs.find? (fun d => d.isPrefixOf uri) = some d := by
  cases hfind : dirs.find? fun d => d.isPrefixOf uri with
  | some d => exact ⟨d, rfl⟩
  | none =>
    obtain ⟨rest, rfl⟩ := List.head?_eq_some_iff.mp huri
    have hno := List.find?_eq_none.mp hfind _ hroot
    exact absurd rfl hno

/-- A request is let through only to an open page or with a session, unless its URI merely
begins with the name of a directory; and the id of a session stays in its 32 bytes. -/
theorem authorized_request {b b' : Boa} {now : Int} {req : Request} {dirs : List Bytes}
    (hroot : [slash] ∈ dirs) (huri : req.requestUri.head? = some slash)
    (hname : ¬ MerelyBegins dirs req.requestUri)
    (hcookie : ∀ cookie, req.cookie = some cookie → (sessionidText cookie).length < 32) :
    (∀ cookie, req.cookie = some cookie → (getSessionidFromCookie cookie).isSome) ∧
      (authAuthorize b now req dirs = some (true, b') →
        isOpenPage req.requestUri = true ∨ HasSession b req) := by
  constructor
  · intro cookie hc
    exact (getSessionid_isSome_iff cookie).mpr (hcookie cookie hc)
  · intro h
    obtain ⟨d, hd⟩ := find_directory hroot huri
    rw [authAuthorize_eq_find, hd] at h
    dsimp only at h
    split at h
    · cases h
    split at h
    · rename_i hbegins
      exact absurd ⟨d, hd, hbegins⟩ hname
    · exact authDirectory_true h

def sampleUser : UserInfo where
  priv := 1
  directory := ascii "/index.html"
  lastTime := 90
  remoteIpAddr := ascii "10.0.0.2"
  sessionId := ascii "4711"
  name := ascii "root"

def sampleBoa : Boa where
  userLoginList := [sampleUser]
  errloginList := []
  gLoginUsername := ascii "root"
  timeCounter := 90
  directoryIndex := none

/-- A request from the address of that client. -/
def sampleRequest (uri : String) (cookie referer : Option String) : Request where
  requestUri := ascii uri
  cookie := cookie.map ascii
  referer := referer.map ascii
  host := none
  queryString := none
  clientStream := []
  remoteIpAddr := ascii "10.0.0.2"

theorem authorized_request_sample :
    isOpenPage (sampleRequest "/status.asp" (some "sessionid=4711") none).requestUri = true ∨
      HasSession sampleBoa (sampleRequest "/status.asp" (some "sessionid=4711") none) := by
  have hlet : authAuthorize sampleBoa 100
      (sampleRequest "/status.asp" (some "sessionid=4711") none) [[slash]] =
        some (true, authSession sampleBoa 100 0) := rfl
  refine (authorized_request (by decide) (by decide) ?_ ?_).2 hlet
  · rintro ⟨d, hd, hname⟩
    cases hd
    exact absurd hname (by decide)
  · rintro cookie hc
    cases hc
    decide

/-- The start page needs no cookie when the client names a page it comes from. -/
theorem start_page_without_cookie :
    ¬ ∀ (b b' : Boa) (now : Int) (req : Request) (dirs : List Bytes), [slash] ∈ dirs →
      req.requestUri.head? = some slash → authAuthorize b now req dirs = some (true, b') →
      isOpenPage req.requestUri = true ∨ ∃ u ∈ b.userLoginList,
        u.remoteIpAddr = req.remoteIpAddr ∧ ∃ cookie, req.cookie = some cookie ∧
          sessionidText cookie ≠ [] ∧ u.sessionId = sessionidText cookie := by
  intro hclaim
  have hlet : authAuthorize sampleBoa 100 (sampleRequest "/" none (some "http://10.0.0.1/"))
      [[slash]] = some (true, authSession sampleBoa 100 0) := rfl
  rcases hclaim _ _ _ _ _ (by decide) (by decide) hlet with hopen | ⟨u, -, -, cookie, hc, -⟩
  · exact absurd hopen (by decide)
  · cases hc

end AuthAuthorize
