import BoaGateway.WebServer

/-!
# The page list of a session

The list that filters a request is chosen by one name that the server keeps for all
clients. It is the account of every session as long as each login attempt that gets as far
as naming an account names the account of the sessions that are open.
-/

namespace PageLists

open ByteBlocks Texts BoaLogin AuthAuthorize WebServer RequestRuns

/-- Every session was opened with the account that is kept. -/
def OneAccount (b : Boa) : Prop := ∀ u ∈ b.userLoginList, u.name = b.gLoginUsername

/-- A request on the strength of a session is filtered by the list of its account. -/
def RightList : Output → Prop
  | .page (some u) list => list = listFor u.name
  | _ => True

/-- A login attempt names the account of every session. -/
def SameAccount (s : Server) : Event → Prop
  | .login i v f => ∀ req, s.pending[i]? = some req →
      ∀ username, loginName v f req.remoteIpAddr = some (.ok username) →
        ∀ u ∈ s.boa.userLoginList, u.name = username
  | _ => True

theorem OneAccount.of_kept {now : Int} {b b' : Boa} (h : OneAccount b) (hkept : Kept now b b') :
    OneAccount b' := by
  intro u hu
  obtain ⟨w, hw, hname⟩ := hkept.names u hu
  rw [hname, hkept.username]
  exact h w hw

theorem OneAccount.of_subset {b b' : Boa} (h : OneAccount b)
    (husers : b'.userLoginList ⊆ b.userLoginList)
    (hname : b'.gLoginUsername = b.gLoginUsername) : OneAccount b' := by
  intro u hu
  rw [hname]
  exact h u (husers hu)

theorem loginDone_oneAccount {b : Boa} {req : Request} {r : Except Nat Boa} (h : OneAccount b)
    (hok : ∀ b', r = .ok b' → OneAccount b') : OneAccount (loginDone b req r).2 := by
  cases r with
  | ok b' => exact hok b' rfl
  | error denied =>
    change OneAccount (loginFailed b req denied)
    unfold loginFailed
    split
    · exact h
    · exact h

theorem openSession_oneAccount {b b' : Boa} {req : Request} {f : Form} {username : Bytes}
    {priv : Nat} (h : OneAccount b) (husername : b.gLoginUsername = username)
    (hopen : openSession b req f username priv = some (.ok b')) : OneAccount b' := by
  unfold openSession at hopen
  split at hopen
  · cases hopen
  · rename_i found hfound
    split at hopen
    · cases hopen
    · cases hopen
      intro u hu
      cases found with
      | none =>
        rcases List.mem_cons.mp hu with rfl | hold
        · exact husername.symm
        · exact h u hold
      | some i =>
        obtain ⟨w, hw, hname⟩ :=
          names_modify (g := fun u => { u with lastTime := b.timeCounter }) (fun _ => rfl) u hu
        rw [hname]
        exact h w hw

theorem userLogin_oneAccount {S : Setup} {b b' : Boa} {req : Request} {v : Values} {f : Form}
    {denied : Nat} (h : OneAccount b)
    (hsame : ∀ username, loginName v f req.remoteIpAddr = some (.ok username) →
      ∀ u ∈ b.userLoginList, u.name = username)
    (hlogin : userLogin S b req v f = some (denied, b')) : OneAccount b' := by
  unfold userLogin at hlogin
  split at hlogin
  · cases hlogin
  · rename_i d hname
    obtain rfl : (loginDone b req (.error d)).2 = b' := congrArg Prod.snd (Option.some.inj hlogin)
    exact loginDone_oneAccount h (by rintro _ ⟨⟩)
  · rename_i username hname
    have hnamed : OneAccount { b with gLoginUsername := username } := hsame username hname
    dsimp only at hlogin
    split at hlogin
    · cases hlogin
    · obtain rfl := congrArg Prod.snd (Option.some.inj hlogin)
      exact loginDone_oneAccount hnamed (by rintro _ ⟨⟩)
    · obtain ⟨r, hopen, he⟩ := Option.map_eq_some_iff.mp hlogin
      obtain rfl := congrArg Prod.snd he
      refine loginDone_oneAccount hnamed ?_
      rintro b₂ rfl
      exact openSession_oneAccount hnamed rfl hopen

theorem strength_mem {S : Setup} {b : Boa} {req : Request} {u : UserInfo}
    (h : strength S b req = some u) : u ∈ b.userLoginList := by
  unfold strength at h
  split at h
  · cases h
  split at h
  · cases h
  split at h
  · exact List.mem_of_getElem? h
  · cases h

/-- The page list of a request is the one for the account that is kept. -/
theorem header_page {S : Setup} {s s' : Server} {req : Request} {user : Option UserInfo}
    {list : Option PageList} (h : header S s req = some (s', .page user list)) :
    list = listFor s'.boa.gLoginUsername ∧ ∀ u, user = some u → u ∈ s.boa.userLoginList := by
  unfold header at h
  dsimp only at h
  split at h
  · cases h
  · obtain ⟨-, ho⟩ := Prod.mk.inj (Option.some.inj h)
    split at ho
    · cases ho
    · cases ho
  · obtain ⟨ok, -, he⟩ := Option.map_eq_some_iff.mp h
    obtain ⟨hs, ho⟩ := Prod.mk.inj he
    split at ho
    · cases ho
    · obtain ⟨rfl, rfl⟩ := Output.page.inj ho
      subst hs
      refine ⟨rfl, fun u hu => ?_⟩
      split at hu
      · cases hu
      · exact strength_mem hu

theorem header_right {S : Setup} {s s' : Server} {req : Request} {o : Output}
    (h : OneAccount s.boa) (hheader : header S s req = some (s', o)) : RightList o := by
  cases o with
  | page user list =>
    cases user with
    | none => trivial
    | some u =>
      obtain ⟨hlist, hmem⟩ := header_page hheader
      change list = listFor u.name
      rw [hlist, h u (hmem u rfl), (header_kept hheader).1.username]
  | none => trivial
  | refused blocked => trivial
  | evaluated now blocked => trivial

theorem mainLoop_users {b b' : Boa} (h : mainLoop b = some b') :
    b'.userLoginList ⊆ b.userLoginList ∧ b'.gLoginUsername = b.gLoginUsername := by
  unfold mainLoop at h
  split at h
  · rename_i users errors husers _
    cases h
    refine ⟨?_, rfl⟩
    rw [freeEntries_eq_filter husers]
    exact List.filter_subset_self _
  · cases h

theorem step_oneAccount {S : Setup} {s s' : Server} {e : Event} {o : Output}
    (h : OneAccount s.boa) (hsame : SameAccount s e) (hstep : step S s e = some (s', o)) :
    OneAccount s'.boa ∧ RightList o := by
  cases step_stepped hstep with
  | header hheader =>
    constructor
    · exact h.of_kept (header_kept hheader).1
    · exact header_right h hheader
  | setCookie hcookie => exact ⟨h.of_kept (printSetCookie_kept hcookie), trivial⟩
  | login hreq hlogin hsome =>
    obtain ⟨res, huser, he⟩ := Option.map_eq_some_iff.mp hsome
    cases he
    exact ⟨userLogin_oneAccount h (hsame _ hreq) huser, trivial⟩
  | logout hfree => exact ⟨h.of_subset (freeFromLoginList_subset hfree) rfl, trivial⟩
  | mainLoop hloop =>
    obtain ⟨husers, hname⟩ := mainLoop_users hloop
    exact ⟨h.of_subset husers hname, trivial⟩
  | respond | close | second | alarm | token => exact ⟨h, trivial⟩

/-- While the attempts name the account of the open sessions, every request on the strength
of a session is filtered by the list of the account that opened it. -/
theorem filtered_by_own_list (S : Setup) (t : Nat) {es : List Event} {s : Server}
    {os : List Output} (hsame : Along (step S) SameAccount (start t) es)
    (hrun : run (step S) (start t) es = some (s, os)) : ∀ o ∈ os, RightList o := by
  have hstart : OneAccount (start t).boa := by
    intro u hu
    cases hu
  exact run_answers_mem (fun _ _ _ _ h hs hstep => step_oneAccount h hs hstep) hstart hsame hrun

/-- The root directory is protected, and each account has one page and the login form. -/
def sampleSetup : Setup where
  dirs := [[slash]]
  adminWebPageList := ["acl.asp", "userLogin"].map ascii
  userWebPageList := ["status.asp", "userLogin"].map ascii
  sha256 := fun password =>
    if password = ascii "root" then ⟨sha256Root, sha256Root_length⟩
    else ⟨sha256Admin, sha256Admin_length⟩

/-- A page or a form, for the client of an address. -/
def sampleRequest (uri ip : String) : Request where
  requestUri := ascii uri
  cookie := some (ascii "sessionid=1")
  referer := none
  host := none
  queryString := none
  clientStream := []
  remoteIpAddr := ascii ip

def sampleValues : Values where
  userName := some (ascii "admin")
  userPassword := some (ascii "admin")
  suserName := some (ascii "root")
  suserPassword := some (ascii "root")
  connectedInterface := 1

def adminHash : Bytes :=
  ascii "8c6976e5b5410415bde908bd4dee15dfb167a9c873fc4bb8a81f6f2ab448a918"

def rootHash : Bytes :=
  ascii "4813494d137e1631bba301d5acab6e7bb7aa74ce1185d456565ef51d737677b2"

def sampleForm (encodeUsername : Bytes) : Form where
  save := ascii "login"
  encodeUsername := encodeUsername
  encodePassword := adminHash
  webCookie := ascii "sessionid=1"

/-- The user logs in and asks for a page. -/
def userPage : List Event :=
  [.header (sampleRequest "/boaform/admin/userLogin" "10.0.0.2"),
   .login 0 sampleValues (sampleForm adminHash),
   .header (sampleRequest "/status.asp" "10.0.0.2")]

theorem filtered_by_own_list_user :
    ∃ s o₁ o₂ o₃, run (step sampleSetup) (start 100) userPage = some (s, [o₁, o₂, o₃]) ∧
      RightList o₃ := by
  have hthree : (run (step sampleSetup) (start 100) userPage).map (fun r => r.2.length) =
      some 3 := by
    decide +kernel
  obtain ⟨⟨s, os⟩, hrun, hos⟩ := Option.map_eq_some_iff.mp hthree
  obtain ⟨o₁, o₂, o₃, rfl⟩ := List.length_eq_three.mp hos
  refine ⟨s, o₁, o₂, o₃, hrun, filtered_by_own_list sampleSetup 100 ?_ hrun o₃ (by simp)⟩
  refine ⟨trivial, ?_⟩
  rintro s₁ o ⟨⟩
  refine ⟨?_, ?_⟩
  · intro req hreq username hname u hu
    cases hu
  · rintro s₂ o ⟨⟩
    exact ⟨trivial, fun _ _ _ => trivial⟩

/-- Another client tries to log in as root, with a wrong password, before the user asks for
the page of root. -/
def otherLogin : List Event :=
  [.header (sampleRequest "/boaform/admin/userLogin" "10.0.0.2"),
   .login 0 sampleValues (sampleForm adminHash),
   .header (sampleRequest "/boaform/admin/userLogin" "10.0.0.3"),
   .login 0 sampleValues (sampleForm rootHash),
   .header (sampleRequest "/acl.asp" "10.0.0.2")]

def isAdminPageOfUser : Output → Bool
  | .page (some u) (some .admin) => u.name == ascii "admin"
  | _ => false

/-- A failed login of another client gives the user the pages of root. -/
theorem user_gets_root_list :
    ¬ ∀ (S : Setup) (t : Nat) (es : List Event) (s : Server) (os : List Output),
      run (step S) (start t) es = some (s, os) → ∀ o ∈ os, RightList o := by
  intro hclaim
  have hpage : (run (step sampleSetup) (start 100) otherLogin).map
      (fun r => r.2.getLast?.map isAdminPageOfUser) = some (some true) := by
    decide +kernel
  obtain ⟨⟨s, os⟩, hrun, hos⟩ := Option.map_eq_some_iff.mp hpage
  obtain ⟨o, hlast, ho⟩ := Option.map_eq_some_iff.mp hos
  have hright := hclaim sampleSetup 100 otherLogin s os hrun o (List.mem_of_getLast? hlast)
  unfold isAdminPageOfUser at ho
  split at ho
  · rename_i u
    have hlist : some PageList.admin = listFor u.name := hright
    rw [eq_of_beq ho] at hlist
    exact absurd hlist (by decide)
  · cases ho

end PageLists
