import BoaGateway.Texts

/-!
# Login lists of the web server

`boa` keeps a list of the clients that are logged in and one of the addresses whose
logins failed. A loop that frees an entry goes on from the freed entry: the model lets
it read the pointer that was there, and has no result when it writes one into it. The
build modelled has the login page of the server and the sessions by cookie.
-/

namespace BoaLogin

open ByteBlocks Texts

/-- `struct user_info`. The name is no field of the program: it is the account of the login
that made the entry. -/
structure UserInfo where
  priv : Nat
  directory : Bytes
  lastTime : Int
  remoteIpAddr : Bytes
  sessionId : Bytes
  name : Bytes
  deriving DecidableEq

structure ErrloginEntry where
  loginCount : Int
  lastTime : Int
  remoteIpAddr : Bytes
  deriving DecidableEq

/-- What the functions here read of a request; `host`, `referer` and `cookie` may be null. -/
structure Request where
  requestUri : Bytes
  cookie : Option Bytes
  referer : Option Bytes
  host : Option Bytes
  queryString : Option Bytes
  clientStream : Bytes
  remoteIpAddr : Bytes
  deriving DecidableEq

/-- The variables of the server. -/
structure Boa where
  userLoginList : List UserInfo
  errloginList : List ErrloginEntry
  gLoginUsername : Bytes
  timeCounter : Int
  directoryIndex : Option Bytes

/-- What `sscanf` matches behind `sessionid=`. -/
def sessionidText (cookie : Bytes) : Bytes :=
  match strstr cookie (ascii "sessionid=") with
  | none => []
  | some s => (s.drop 10).takeWhile fun c => c != 59 && c != 0

/-- `get_sessionid_from_cookie`: the text is stored in 32 bytes of the caller. -/
def getSessionidFromCookie (cookie : Bytes) : Option (Option Bytes) :=
  if sessionidText cookie = [] then some none
  else ((Block.zeros 32).write 0 (sessionidText cookie ++ [0])).map fun id => some (cstr id.1)

theorem sessionidText_nul (cookie : Bytes) : (0 : UInt8) ∉ sessionidText cookie := by
  unfold sessionidText
  intro h
  split at h
  · cases h
  · have hc := List.mem_takeWhile_imp h
    simp at hc

/-- An id comes out as it stands in the cookie. -/
theorem getSessionid_eq_some {cookie id : Bytes}
    (h : getSessionidFromCookie cookie = some (some id)) :
    id = sessionidText cookie ∧ id ≠ [] := by
  unfold getSessionidFromCookie at h
  split at h
  · cases h
  · rename_i hne
    obtain ⟨b, hwrite, he⟩ := Option.map_eq_some_iff.mp h
    obtain ⟨-, hb⟩ := Block.write_eq_some_iff.mp hwrite
    have hid : id = sessionidText cookie := by
      rw [← Option.some.inj he, hb]
      simp only [List.take_zero, List.nil_append, List.append_assoc, List.singleton_append]
      exact cstr_nul_free (sessionidText_nul cookie) _
    exact ⟨hid, hid ▸ hne⟩

/-- The parser stays in its 32 bytes exactly for ids of at most 31. -/
theorem getSessionid_isSome_iff (cookie : Bytes) :
    (getSessionidFromCookie cookie).isSome ↔ (sessionidText cookie).length < 32 := by
  unfold getSessionidFromCookie
  split
  · rename_i hnil
    simp [hnil]
  · rw [Option.isSome_map, Option.isSome_iff_exists]
    constructor
    · rintro ⟨b, hb⟩
      have hlen := Block.write_length hb
      rw [List.length_append, List.length_singleton] at hlen
      omega
    · intro hlt
      have hfit : (sessionidText cookie ++ [0]).length ≤ 32 := by
        rw [List.length_append, List.length_singleton]
        omega
      obtain ⟨b, hb, -⟩ := Block.write_head (Block.zeros 32) hfit
      exact ⟨b, hb⟩

def UserInfo.sameIp (u : UserInfo) (req : Request) : Bool := req.remoteIpAddr == u.remoteIpAddr

/-- An entry without a session id goes with every id. -/
def UserInfo.hasSession (u : UserInfo) (id : Bytes) : Bool :=
  u.sessionId.isEmpty || id == u.sessionId

/-- `search_login_list`: the position of the entry. -/
def searchLoginList (l : List UserInfo) (req : Request) : Option (Option Nat) :=
  match req.cookie with
  | none => some (l.findIdx? fun u => u.sameIp req)
  | some cookie =>
    match getSessionidFromCookie cookie with
    | none => none
    | some none => some none
    | some (some id) => some (l.findIdx? fun u => u.sameIp req && u.hasSession id)

/-- `search_errlog_list`. -/
def searchErrlogList (l : List ErrloginEntry) (req : Request) : Option ErrloginEntry :=
  l.find? fun e => e.remoteIpAddr == req.remoteIpAddr

/-- The rest of a loop that frees entries: `kept` when an entry before is still in the list,
and `freed` when the entry before was freed. Unlinking behind a freed entry writes into it. -/
def freeRest {α : Type} (dead : α → Bool) : Bool → Bool → List α → Option (List α)
  | _, _, [] => some []
  | kept, freed, x :: xs =>
    if dead x then if kept && freed then none else freeRest dead kept true xs
    else (freeRest dead true false xs).map (x :: ·)

/-- A loop over a list that frees entries. -/
def freeEntries {α : Type} (dead : α → Bool) (l : List α) : Option (List α) :=
  freeRest dead false false l

/-- `free_from_login_list_by_ip`. -/
def freeFromLoginListByIp (l : List UserInfo) (req : Request) : Option (List UserInfo) :=
  freeEntries (fun u => u.sameIp req) l

/-- `free_from_login_list`: the cookie alone decides, and no address. -/
def freeFromLoginList (l : List UserInfo) (cookie : Option Bytes) : Option (Bool × List UserInfo) :=
  match cookie with
  | none => some (true, l)
  | some cookie =>
    match getSessionidFromCookie cookie with
    | none => none
    | some none => some (true, l)
    | some (some sessid) =>
      match l.findIdx? fun u => u.sessionId == sessid with
      | none => some (false, l)
      | some i => some (true, l.eraseIdx i)

/-- `free_from_errlog_list`. -/
def freeFromErrlogList (l : List ErrloginEntry) (req : Request) : List ErrloginEntry :=
  l.eraseP fun e => e.remoteIpAddr == req.remoteIpAddr

theorem freeRest_eq_filter {α : Type} {dead : α → Bool} {kept freed : Bool} {l l' : List α}
    (h : freeRest dead kept freed l = some l') : l' = l.filter fun x => !dead x := by
  induction l generalizing kept freed l' with
  | nil =>
    cases h
    rfl
  | cons x xs ih =>
    rw [freeRest] at h
    by_cases hx : dead x = true
    · rw [if_pos hx] at h
      split at h
      · cases h
      · rw [ih h]
        simp [hx]
    · rw [if_neg hx] at h
      obtain ⟨l₁, hrest, rfl⟩ := Option.map_eq_some_iff.mp h
      rw [ih hrest]
      simp [hx]

/-- What such a loop leaves, if it comes to its end. -/
theorem freeEntries_eq_filter {α : Type} {dead : α → Bool} {l l' : List α}
    (h : freeEntries dead l = some l') : l' = l.filter fun x => !dead x :=
  freeRest_eq_filter h

theorem freeFromLoginList_subset {l l' : List UserInfo} {cookie : Option Bytes} {ok : Bool}
    (h : freeFromLoginList l cookie = some (ok, l')) : l' ⊆ l := by
  unfold freeFromLoginList at h
  split at h
  · cases h
    exact List.Subset.refl _
  split at h
  · cases h
  · cases h
    exact List.Subset.refl _
  split at h
  · cases h
    exact List.Subset.refl _
  · cases h
    exact List.eraseIdx_subset

/-- The entry that the search finds has the address of the client and, if there is a cookie,
its session id or none yet. -/
theorem searchLoginList_spec {l : List UserInfo} {req : Request} {i : Nat}
    (h : searchLoginList l req = some (some i)) :
    ∃ u, l[i]? = some u ∧ u.remoteIpAddr = req.remoteIpAddr ∧
      ∀ cookie, req.cookie = some cookie → sessionidText cookie ≠ [] ∧
        (u.sessionId = sessionidText cookie ∨ u.sessionId = []) := by
  unfold searchLoginList at h
  split at h
  · rename_i hnone
    obtain ⟨hlt, hip, -⟩ := List.findIdx?_eq_some_iff_getElem.mp (Option.some.inj h)
    refine ⟨l[i], List.getElem?_eq_getElem hlt, (eq_of_beq hip).symm, ?_⟩
    intro cookie hcookie
    cases hnone.symm.trans hcookie
  · rename_i cookie hsome
    split at h
    · cases h
    · cases h
    · rename_i id hid
      obtain ⟨rfl, hne⟩ := getSessionid_eq_some hid
      obtain ⟨hlt, hmatch, -⟩ := List.findIdx?_eq_some_iff_getElem.mp (Option.some.inj h)
      obtain ⟨hip, hses⟩ := Bool.and_eq_true_iff.mp hmatch
      refine ⟨l[i], List.getElem?_eq_getElem hlt, (eq_of_beq hip).symm, ?_⟩
      intro cookie' hcookie
      cases hsome.symm.trans hcookie
      refine ⟨hne, ?_⟩
      rcases Bool.or_eq_true_iff.mp hses with hempty | heq
      · exact Or.inr (List.isEmpty_iff.mp hempty)
      · exact Or.inl (eq_of_beq heq).symm

end BoaLogin
