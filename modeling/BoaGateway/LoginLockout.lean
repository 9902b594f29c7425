import BoaGateway.WebServer

/-!
# The lockout after failed logins

When the count of an address reaches a multiple of the limit, its logins are to be refused
for a time. The test is made when the header of a request has come, and only for clients
without a session, but a login is evaluated when its body has come. The lockout works in
runs where the logins of a locked address come to that test, and where the failure that
reaches the limit is not dated back and leaves no other login of its address behind.
-/

namespace LoginLockout

open ByteBlocks Texts BoaLogin AuthAuthorize WebServer RequestRuns

/-- The address is locked out since some time. -/
def Locked (s : Server) (ip : Bytes) (since : Int) : Prop :=
  s.blocked ip = some since ∧ s.uptime - since < loginErrWaitTime

/-- No login is evaluated for an address that is locked out, and only addresses that failed
are refused. -/
def RightAnswer : Output → Prop
  | .evaluated now blocked => ∀ since, blocked = some since → loginErrWaitTime ≤ now - since
  | .refused blocked => blocked ≠ none
  | _ => True

/-- The request comes to the test for failed logins: it is for a protected directory, and no
session lets it through. -/
def Tested (S : Setup) (b : Boa) (req : Request) : Prop :=
  (∃ d, S.dirs.find? (fun d => d.isPrefixOf req.requestUri) = some d ∧
    nameOnly d req.requestUri = false) ∧
  ∀ i, sessionOf b req ≠ some (some i)

/-- A bad password or an unknown user. -/
def badLogin (S : Setup) (v : Values) (f : Form) (ip : Bytes) : Bool :=
  match loginName v f ip with
  | none => false
  | some (.error denied) => decide (denied = 1 ∨ denied = 2)
  | some (.ok username) =>
    match checkLogin S v f username with
    | some (.error denied) => decide (denied = 1 ∨ denied = 2)
    | _ => false

/-- The logins of a locked address are tested, and a failure that reaches the limit is dated
no earlier than it happens and leaves no other login of its address behind. -/
def Enforced (S : Setup) (s : Server) : Event → Prop
  | .header req => isLogin req = true → (∃ since, Locked s req.remoteIpAddr since) →
      Tested S s.boa req
  | .login i v f => ∀ req, s.pending[i]? = some req → reachesLimit s.boa req = true →
      badLogin S v f req.remoteIpAddr = true →
      s.uptime ≤ s.boa.timeCounter ∧
        ∀ other ∈ s.pending.eraseIdx i, isLogin other = true →
          other.remoteIpAddr ≠ req.remoteIpAddr
  | _ => True

/-- The entry of an address. -/
def failures (l : List ErrloginEntry) (ip : Bytes) : Option ErrloginEntry :=
  l.find? fun e => e.remoteIpAddr == ip

/-- A locked address has an entry that refuses it and no login that is let through already. -/
structure Lockout (s : Server) : Prop where
  time : s.boa.timeCounter ≤ s.uptime + 1
  counted : ∀ e ∈ s.boa.errloginList, e.loginCount % maxLoginNum = 0 →
    s.blocked e.remoteIpAddr ≠ none
  entry : ∀ ip since, Locked s ip since → ∃ e, failures s.boa.errloginList ip = some e ∧
    e.loginCount % maxLoginNum = 0 ∧ since ≤ e.lastTime
  pending : ∀ ip since, Locked s ip since → ∀ req ∈ s.pending, isLogin req = true →
    req.remoteIpAddr ≠ ip

theorem find?_modify_self {α : Type} {p : α → Bool} {g : α → α} {l : List α} {i : Nat}
    (hi : l.findIdx? p = some i) (hg : ∀ x, p x = true → p (g x) = true) :
    (l.modify i g).find? p = (l.find? p).map g := by
  induction l generalizing i with
  | nil => cases hi
  | cons x xs ih =>
    rw [List.findIdx?_cons] at hi
    by_cases hx : p x = true
    · rw [if_pos hx] at hi
      cases hi
      simp [hx, hg x hx]
    · rw [if_neg hx] at hi
      obtain ⟨j, hj, rfl⟩ := Option.map_eq_some_iff.mp hi
      simpa [List.find?_cons, hx] using ih hj

theorem find?_modify_other {α : Type} {p : α → Bool} {g : α → α} {l : List α} {i : Nat}
    (h : ∀ x, l[i]? = some x → p x = false ∧ p (g x) = false) :
    (l.modify i g).find? p = l.find? p := by
  induction l generalizing i with
  | nil => simp
  | cons x xs ih =>
    cases i with
    | zero =>
      obtain ⟨hx, hgx⟩ := h x rfl
      simp [hx, hgx]
    | succ i =>
      rw [List.modify_succ_cons, List.find?_cons, List.find?_cons, ih fun y hy => h y hy]

theorem find?_eraseP_other {α : Type} {p q : α → Bool} {l : List α}
    (h : ∀ x, q x = true → p x = false) : (l.eraseP q).find? p = l.find? p := by
  induction l with
  | nil => rfl
  | cons x xs ih =>
    rw [List.eraseP_cons]
    by_cases hx : q x = true
    · simp [hx, h x hx]
    · simp only [hx, cond_false, List.find?_cons, ih]

/-- An entry stays the first one of its address when others are dropped. -/
theorem find?_filter_kept {α : Type} {p q : α → Bool} {l : List α} {x : α}
    (h : l.find? p = some x) (hx : q x = true) : (l.filter q).find? p = some x := by
  induction l with
  | nil => cases h
  | cons y ys ih =>
    rw [List.find?_cons] at h
    by_cases hy : p y = true
    · simp only [hy] at h
      cases h
      simp [hx, hy]
    · simp only [hy] at h
      by_cases hq : q y = true
      · simpa [hq, hy] using ih h
      · simpa [hq] using ih h

theorem searchErrlogList_eq (l : List ErrloginEntry) (req : Request) :
    searchErrlogList l req = failures l req.remoteIpAddr := rfl

theorem failures_countFailure_self {b : Boa} {req : Request} {e : ErrloginEntry}
    (h : failures b.errloginList req.remoteIpAddr = some e) :
    failures (countFailure b req) req.remoteIpAddr =
      some { e with lastTime := b.timeCounter, loginCount := e.loginCount + 1 } := by
  unfold countFailure
  split
  · rename_i hnone
    have hno := List.findIdx?_eq_none_iff.mp hnone e (List.mem_of_find?_eq_some h)
    have hyes := List.find?_some h
    exact absurd (hno.symm.trans hyes) (by decide)
  · rename_i i hi
    have hmodify := find?_modify_self (g := fun e : ErrloginEntry =>
      { e with lastTime := b.timeCounter, loginCount := e.loginCount + 1 }) hi fun _ hx => hx
    exact hmodify.trans (congrArg (Option.map _) h)

theorem failures_countFailure_other {b : Boa} {req : Request} {ip : Bytes}
    (hip : ip ≠ req.remoteIpAddr) :
    failures (countFailure b req) ip = failures b.errloginList ip := by
  have hne : (req.remoteIpAddr == ip) = false := beq_eq_false_iff_ne.mpr hip.symm
  unfold countFailure
  split
  · unfold failures
    rw [List.find?_cons, hne]
  · rename_i i hi
    refine find?_modify_other fun x hx => ?_
    obtain ⟨hlt, hp, -⟩ := List.findIdx?_eq_some_iff_getElem.mp hi
    rw [List.getElem?_eq_getElem hlt] at hx
    cases hx
    have hxip := eq_of_beq hp
    exact ⟨hxip ▸ hne, hxip ▸ hne⟩

theorem failures_freeFromErrlogList {l : List ErrloginEntry} {req : Request} {ip : Bytes}
    (hip : ip ≠ req.remoteIpAddr) :
    failures (freeFromErrlogList l req) ip = failures l ip := by
  refine find?_eraseP_other fun x hx => ?_
  rw [eq_of_beq hx]
  exact beq_eq_false_iff_ne.mpr hip.symm

/-- A failure gives an entry that is not full, or counts the entry of the address. -/
theorem mem_countFailure {b : Boa} {req : Request} {e : ErrloginEntry}
    (he : e ∈ countFailure b req) :
    e ∈ b.errloginList ∨ e.loginCount % maxLoginNum ≠ 0 ∨
      ∃ e₀, failures b.errloginList req.remoteIpAddr = some e₀ ∧
        e.loginCount = e₀.loginCount + 1 ∧ e.remoteIpAddr = req.remoteIpAddr := by
  unfold countFailure at he
  split at he
  · rcases List.mem_cons.mp he with rfl | hold
    · have hone : (1 : Int) % maxLoginNum ≠ 0 := by decide
      exact Or.inr (Or.inl hone)
    · exact Or.inl hold
  · rename_i i hi
    obtain ⟨k, hk, rfl⟩ := List.mem_iff_getElem.mp he
    rw [List.length_modify] at hk
    rw [List.getElem_modify]
    by_cases hik : i = k
    · subst hik
      obtain ⟨hlt, hp, hfirst⟩ := List.findIdx?_eq_some_iff_getElem.mp hi
      refine Or.inr (Or.inr ⟨b.errloginList[i], ?_, ?_, ?_⟩)
      · refine List.find?_eq_some_iff_getElem.mpr ⟨hp, i, hk, rfl, fun j hj => ?_⟩
        simpa using hfirst j hj
      · rw [if_pos rfl]
      · rw [if_pos rfl]
        exact eq_of_beq hp
    · rw [if_neg hik]
      exact Or.inl (List.getElem_mem hk)

theorem loginFailed_errors (b : Boa) (req : Request) (denied : Nat) :
    (loginFailed b req denied).errloginList =
        (if denied = 1 ∨ denied = 2 then countFailure b req else b.errloginList) ∧
      (loginFailed b req denied).timeCounter = b.timeCounter := by
  unfold loginFailed
  split
  · exact ⟨rfl, rfl⟩
  · exact ⟨rfl, rfl⟩

theorem openSession_errors {b b' : Boa} {req : Request} {f : Form} {username : Bytes}
    {priv : Nat} (h : openSession b req f username priv = some (.ok b')) :
    b'.errloginList = freeFromErrlogList b.errloginList req ∧ b'.timeCounter = b.timeCounter := by
  unfold openSession at h
  split at h
  · cases h
  split at h
  · cases h
  · cases h
    exact ⟨rfl, rfl⟩

theorem openSession_error {b : Boa} {req : Request} {f : Form} {username : Bytes} {priv denied : Nat}
    (h : openSession b req f username priv = some (.error denied)) : denied = 7 := by
  unfold openSession at h
  split at h
  · cases h
  split at h
  · cases h
    rfl
  · cases h

/-- A bad login is counted; another one leaves the entries alone, or frees the one of its
address. -/
structure Counted (bad : Prop) (req : Request) (denied : Nat) (b b' : Boa) : Prop where
  time : b'.timeCounter = b.timeCounter
  errors : ((denied = 1 ∨ denied = 2) ∧ bad ∧ b'.errloginList = countFailure b req) ∨
    (¬ (denied = 1 ∨ denied = 2) ∧ (b'.errloginList = b.errloginList ∨
      b'.errloginList = freeFromErrlogList b.errloginList req))

theorem loginDone_counted {bad : Prop} {req : Request} {denied : Nat} {b b₁ : Boa}
    (herrors : b₁.errloginList = b.errloginList) (htime : b₁.timeCounter = b.timeCounter)
    (hbad : denied = 1 ∨ denied = 2 → bad) :
    Counted bad req denied b (loginDone b₁ req (.error denied)).2 := by
  have hcount : countFailure b₁ req = countFailure b req := by
    simp only [countFailure, herrors, htime]
  obtain ⟨hlist, htime₁⟩ := loginFailed_errors b₁ req denied
  refine ⟨htime₁.trans htime, ?_⟩
  by_cases hdenied : denied = 1 ∨ denied = 2
  · rw [if_pos hdenied, hcount] at hlist
    exact Or.inl ⟨hdenied, hbad hdenied, hlist⟩
  · rw [if_neg hdenied, herrors] at hlist
    exact Or.inr ⟨hdenied, Or.inl hlist⟩

theorem userLogin_counted {S : Setup} {b b' : Boa} {req : Request} {v : Values} {f : Form}
    {denied : Nat} (h : userLogin S b req v f = some (denied, b')) :
    Counted (badLogin S v f req.remoteIpAddr = true) req denied b b' := by
  unfold userLogin at h
  split at h
  · cases h
  · rename_i d hname
    cases h
    refine loginDone_counted rfl rfl fun hd => ?_
    simp only [badLogin, hname, hd, decide_true]
  · rename_i username hname
    dsimp only at h
    split at h
    · cases h
    · rename_i d hcheck
      cases h
      refine loginDone_counted rfl rfl fun hd => ?_
      simp only [badLogin, hname, hcheck, hd, decide_true]
    · obtain ⟨r, hopen, he⟩ := Option.map_eq_some_iff.mp h
      cases r with
      | error d =>
        cases he
        refine loginDone_counted rfl rfl fun hd => ?_
        rw [openSession_error hopen] at hd
        rcases hd with hd | hd
        · cases hd
        · cases hd
      | ok b₂ =>
        cases he
        obtain ⟨herrors, htime⟩ := openSession_errors hopen
        exact ⟨htime, Or.inr ⟨by decide, Or.inr herrors⟩⟩

/-- A login leaves the entries of other addresses alone. -/
theorem Counted.failures_other {bad : Prop} {req : Request} {denied : Nat} {b b' : Boa}
    (h : Counted bad req denied b b') {ip : Bytes} (hip : ip ≠ req.remoteIpAddr) :
    failures b'.errloginList ip = failures b.errloginList ip := by
  rcases h.errors with ⟨-, -, hlist⟩ | ⟨-, hlist | hlist⟩
  · rw [hlist, failures_countFailure_other hip]
  · rw [hlist]
  · rw [hlist, failures_freeFromErrlogList hip]

/-- A full entry after a login was full before, or the login has reached the limit. -/
theorem Counted.full {bad : Prop} {req : Request} {denied : Nat} {b b' : Boa}
    (h : Counted bad req denied b b') {e : ErrloginEntry} (he : e ∈ b'.errloginList)
    (hfull : e.loginCount % maxLoginNum = 0) :
    e ∈ b.errloginList ∨ ((denied = 1 ∨ denied = 2) ∧ reachesLimit b req = true ∧
      e.remoteIpAddr = req.remoteIpAddr) := by
  rcases h.errors with ⟨hdenied, -, hlist⟩ | ⟨-, hlist | hlist⟩
  · rw [hlist] at he
    rcases mem_countFailure he with hold | hnew | ⟨e₀, hfound, hcount, hip⟩
    · exact Or.inl hold
    · exact absurd hfull hnew
    · refine Or.inr ⟨hdenied, ?_, hip⟩
      rw [hcount] at hfull
      simp only [reachesLimit, searchErrlogList_eq, hfound, Option.any_some, hfull, beq_self_eq_true]
  · exact Or.inl (hlist ▸ he)
  · rw [hlist] at he
    exact Or.inl (List.eraseP_subset he)

/-- A login that does not reach the limit, of an address that is not locked. -/
theorem Lockout.below {s : Server} {i : Nat} {req : Request} {bad : Prop} {denied : Nat} {b' : Boa}
    (h : Lockout s) (hfree : ∀ since, ¬ Locked s req.remoteIpAddr since)
    (hcounted : Counted bad req denied s.boa b')
    (hlimit : ¬ ((denied = 1 ∨ denied = 2) ∧ reachesLimit s.boa req = true)) :
    Lockout { s with boa := b', pending := s.pending.eraseIdx i } := by
  constructor
  · exact hcounted.time.le.trans h.time
  · intro e he hfull
    rcases hcounted.full he hfull with hold | ⟨hdenied, hreach, -⟩
    · exact h.counted e hold hfull
    · exact absurd ⟨hdenied, hreach⟩ hlimit
  · intro ip since hlocked
    have hip : ip ≠ req.remoteIpAddr := by
      rintro rfl
      exact hfree since hlocked
    obtain ⟨e, hfound, hfull, hsince⟩ := h.entry ip since hlocked
    exact ⟨e, (hcounted.failures_other hip).trans hfound, hfull, hsince⟩
  · intro ip since hlocked other hother
    exact h.pending ip since hlocked other (List.mem_of_mem_eraseIdx hother)

/-- The bad login that reaches the limit locks its address. -/
theorem Lockout.limit {s : Server} {i : Nat} {req : Request} {b' : Boa} (h : Lockout s)
    (htime : b'.timeCounter = s.boa.timeCounter)
    (hlist : b'.errloginList = countFailure s.boa req)
    (hreach : reachesLimit s.boa req = true) (hclock : s.uptime ≤ s.boa.timeCounter)
    (hothers : ∀ other ∈ s.pending.eraseIdx i, isLogin other = true →
      other.remoteIpAddr ≠ req.remoteIpAddr) :
    Lockout { s with
      boa := b'
      pending := s.pending.eraseIdx i
      blocked := Function.update s.blocked req.remoteIpAddr (some s.uptime) } := by
  obtain ⟨e₀, hfound, hcount⟩ := (Option.any_eq_true _ _).mp hreach
  constructor
  · exact htime.le.trans h.time
  · intro e he hfull
    by_cases hip : e.remoteIpAddr = req.remoteIpAddr
    · simp only [hip, Function.update_self]
      exact Option.some_ne_none _
    · simp only [Function.update_of_ne hip]
      rw [hlist] at he
      rcases mem_countFailure he with hold | hnew | ⟨_, _, _, hsame⟩
      · exact h.counted e hold hfull
      · exact absurd hfull hnew
      · exact absurd hsame hip
  · rintro ip since ⟨hsince, hlt⟩
    by_cases hip : ip = req.remoteIpAddr
    · subst hip
      simp only [Function.update_self] at hsince
      cases hsince
      refine ⟨_, (congrArg _ hlist).trans (failures_countFailure_self hfound), ?_, hclock⟩
      exact eq_of_beq hcount
    · simp only [Function.update_of_ne hip] at hsince
      obtain ⟨e, he, hfull, htime⟩ := h.entry ip since ⟨hsince, hlt⟩
      refine ⟨e, ?_, hfull, htime⟩
      change failures b'.errloginList ip = some e
      rw [hlist, failures_countFailure_other hip, he]
  · rintro ip since ⟨hsince, hlt⟩ other hother hlogin
    by_cases hip : ip = req.remoteIpAddr
    · rw [hip]
      exact hothers other hother hlogin
    · simp only [Function.update_of_ne hip] at hsince
      exact h.pending ip since ⟨hsince, hlt⟩ other (List.mem_of_mem_eraseIdx hother) hlogin

theorem login_lockout {S : Setup} {s s' : Server} {i : Nat} {req : Request} {v : Values}
    {f : Form} {o : Output} (h : Lockout s) (hreq : s.pending[i]? = some req)
    (hlogin : isLogin req = true)
    (hlast : reachesLimit s.boa req = true → badLogin S v f req.remoteIpAddr = true →
      s.uptime ≤ s.boa.timeCounter ∧ ∀ other ∈ s.pending.eraseIdx i, isLogin other = true →
        other.remoteIpAddr ≠ req.remoteIpAddr)
    (hstep : login S { s with pending := s.pending.eraseIdx i } req v f = some (s', o)) :
    Lockout s' ∧ RightAnswer o := by
  -- a login that is evaluated was let through, so its address is not locked
  have hfree : ∀ since, ¬ Locked s req.remoteIpAddr since := by
    intro since hlocked
    exact h.pending _ since hlocked req (List.mem_of_getElem? hreq) hlogin rfl
  obtain ⟨⟨denied, b'⟩, huser, he⟩ := Option.map_eq_some_iff.mp hstep
  have hcounted := userLogin_counted huser
  cases he
  constructor
  · dsimp only
    by_cases hlimit : (decide (denied = 1 ∨ denied = 2) && reachesLimit s.boa req) = true
    · obtain ⟨hdenied, hreach⟩ := Bool.and_eq_true_iff.mp hlimit
      rw [if_pos hlimit]
      rcases hcounted.errors with ⟨-, hbad, hlist⟩ | ⟨hnot, -⟩
      · obtain ⟨hclock, hothers⟩ := hlast hreach hbad
        exact h.limit hcounted.time hlist hreach hclock hothers
      · exact absurd (of_decide_eq_true hdenied) hnot
    · rw [if_neg hlimit]
      refine h.below hfree hcounted fun ⟨hdenied, hreach⟩ => hlimit ?_
      rw [hreach, Bool.and_true]
      exact decide_eq_true hdenied
  · intro since hsince
    by_contra hlt
    exact hfree since ⟨hsince, Int.not_le.mp hlt⟩

/-- The lockout stays when entries of locked addresses do, and no login of such an address is
let through. -/
theorem Lockout.carry {s s' : Server} (h : Lockout s) (hclock : s.uptime ≤ s'.uptime)
    (htime : s'.boa.timeCounter ≤ s'.uptime + 1) (hblocked : s'.blocked = s.blocked)
    (hsub : s'.boa.errloginList ⊆ s.boa.errloginList)
    (hkeep : ∀ ip since e, Locked s ip since → since ≤ e.lastTime →
      failures s.boa.errloginList ip = some e → failures s'.boa.errloginList ip = some e)
    (hpending : ∀ req ∈ s'.pending, isLogin req = true →
      req ∈ s.pending ∨ ∀ since, ¬ Locked s req.remoteIpAddr since) : Lockout s' := by
  have hlocked : ∀ ip since, Locked s' ip since → Locked s ip since := by
    rintro ip since ⟨hsince, hlt⟩
    exact ⟨hblocked ▸ hsince, by omega⟩
  constructor
  · exact htime
  · intro e he hfull
    rw [hblocked]
    exact h.counted e (hsub he) hfull
  · intro ip since hl
    obtain ⟨e, hfound, hfull, hsince⟩ := h.entry ip since (hlocked ip since hl)
    exact ⟨e, hkeep ip since e (hlocked ip since hl) hsince hfound, hfull, hsince⟩
  · rintro ip since hl req hreq hlogin rfl
    rcases hpending req hreq hlogin with hold | hfree
    · exact h.pending _ since (hlocked _ since hl) req hold hlogin rfl
    · exact hfree since (hlocked _ since hl)

/-- The login form is no page that needs no authorisation. -/
theorem isLogin_needs_auth {req : Request} (h : isLogin req = true) :
    noAuthPages.contains req.requestUri = false := by
  have hpages : ∀ uri ∈ noAuthPages, formName uri ≠ some (ascii "userLogin") := by decide
  rw [Bool.eq_false_iff]
  intro hmem
  exact hpages _ (List.contains_iff_mem.mp hmem) (eq_of_beq h)

/-- A request that is tested against a fresh full entry is refused. -/
theorem tested_refused {S : Setup} {b b' : Boa} {now : Int} {req : Request} {e : ErrloginEntry}
    {ok : Bool} (htested : Tested S b req)
    (hfound : failures b.errloginList req.remoteIpAddr = some e)
    (hrefuses : errlogRefuses e now = true)
    (h : authAuthorize b now req S.dirs = some (ok, b')) : ok = false := by
  obtain ⟨⟨d, hd, hname⟩, hsession⟩ := htested
  rw [authAuthorize_eq_find, hd] at h
  simp only [hname, Bool.false_eq_true, if_false] at h
  split at h
  · cases h
  · unfold authDirectory at h
    split at h
    · cases h
    · rename_i i hi
      exact absurd hi (hsession i)
    · unfold authNoSession at h
      rw [searchErrlogList_eq, hfound] at h
      simp only [hrefuses, if_true] at h
      cases h
      rfl

theorem header_lockout {S : Setup} {s s' : Server} {req : Request} {o : Output} (h : Lockout s)
    (henforced : Enforced S s (.header req)) (hstep : header S s req = some (s', o)) :
    Lockout s' ∧ RightAnswer o := by
  obtain ⟨hkept, huptime, hblocked⟩ := header_kept hstep
  have htime : s'.boa.timeCounter ≤ s'.uptime + 1 := by
    have := h.time
    rcases hkept.time with heq | heq
    · omega
    · omega
  have hcarry := h.carry huptime.ge htime hblocked (fun _ he => hkept.errors ▸ he)
    (fun _ _ _ _ _ hfound => (congrArg (failures · _) hkept.errors).trans hfound)
  unfold header at hstep
  dsimp only at hstep
  split at hstep
  · cases hstep
  · cases hstep
    refine ⟨hcarry fun other hother _ => Or.inl hother, ?_⟩
    split
    · rename_i hrefused
      obtain ⟨e, hfound, hrefuses⟩ := (Option.any_eq_true _ _).mp hrefused
      have hfull := eq_of_beq (Bool.and_eq_true_iff.mp hrefuses).1
      have hip := eq_of_beq (List.find?_some
        (p := fun e : ErrloginEntry => e.remoteIpAddr == req.remoteIpAddr) hfound)
      exact hip ▸ h.counted e (List.mem_of_find?_eq_some hfound) hfull
    · trivial
  · rename_i b hauth
    obtain ⟨ok, -, he⟩ := Option.map_eq_some_iff.mp hstep
    cases he
    refine ⟨hcarry fun other hother hlogin => ?_, ?_⟩
    · dsimp only at hother
      split at hother
      · rcases List.mem_append.mp hother with hold | hnew
        · exact Or.inl hold
        · obtain rfl := List.mem_singleton.mp hnew
          refine Or.inr fun since hlocked => ?_
          obtain ⟨e, hfound, hfull, hsince⟩ := h.entry _ since hlocked
          have hrefuses : errlogRefuses e s.uptime = true := by
            have := hlocked.2
            simp only [errlogRefuses, hfull, beq_self_eq_true, Bool.true_and, decide_eq_true_eq]
            omega
          rw [isLogin_needs_auth hlogin] at hauth
          cases tested_refused (henforced hlogin ⟨since, hlocked⟩) hfound hrefuses hauth
      · exact Or.inl hother
    · split
      · trivial
      · trivial

theorem mainLoop_lockout {s : Server} {b : Boa} (h : Lockout s) (hloop : mainLoop s.boa = some b) :
    Lockout { s with boa := b } := by
  unfold mainLoop at hloop
  split at hloop
  · rename_i users errors husers herrors
    cases hloop
    have hfilter := freeEntries_eq_filter herrors
    refine h.carry le_rfl h.time rfl ?_ ?_ fun _ hreq _ => Or.inl hreq
    · rw [hfilter]
      exact List.filter_subset_self _
    · intro ip since e hlocked hsince hfound
      dsimp only
      rw [hfilter]
      refine find?_filter_kept hfound ?_
      -- the entry of a locked address is too young to be freed
      have hlt := hlocked.2
      have htime := h.time
      simp only [Bool.not_eq_true', decide_eq_false_iff_not]
      omega
  · cases hloop

/-- A step that touches neither the failures nor what is pending. -/
theorem Lockout.carry_same {s s' : Server} (h : Lockout s) (hclock : s.uptime ≤ s'.uptime)
    (htime : s'.boa.timeCounter ≤ s'.uptime + 1) (hblocked : s'.blocked = s.blocked)
    (herrors : s'.boa.errloginList = s.boa.errloginList) (hpending : s'.pending ⊆ s.pending) :
    Lockout s' := by
  refine h.carry hclock htime hblocked (fun _ he => herrors ▸ he) ?_ ?_
  · intro ip since e _ _ hfound
    exact (congrArg (failures · ip) herrors).trans hfound
  · intro req hreq _
    exact Or.inl (hpending hreq)

theorem step_lockout {S : Setup} {s s' : Server} {e : Event} {o : Output} (h : Lockout s)
    (henforced : Enforced S s e) (hstep : step S s e = some (s', o)) :
    Lockout s' ∧ RightAnswer o := by
  have htime := h.time
  cases step_stepped hstep with
  | header hheader => exact header_lockout h henforced hheader
  | setCookie hcookie =>
    have hkept := printSetCookie_kept hcookie
    refine ⟨h.carry_same le_rfl ?_ rfl hkept.errors (List.Subset.refl _), trivial⟩
    rcases hkept.time with heq | heq
    · exact heq ▸ htime
    · simp only [heq]
      omega
  | respond => exact ⟨h, trivial⟩
  | login hreq hlogin hsome => exact login_lockout h hreq hlogin (henforced _ hreq) hsome
  | logout | close =>
    exact ⟨h.carry_same le_rfl htime rfl rfl (List.eraseIdx_subset), trivial⟩
  | mainLoop hloop => exact ⟨mainLoop_lockout h hloop, trivial⟩
  | second =>
    refine ⟨h.carry_same ?_ ?_ rfl rfl (List.Subset.refl _), trivial⟩
    · simp
    · simp only
      omega
  | alarm hbehind =>
    exact ⟨h.carry_same le_rfl (by simpa using hbehind) rfl rfl (List.Subset.refl _), trivial⟩
  | token => exact ⟨h.carry_same le_rfl (by simp) rfl rfl (List.Subset.refl _), trivial⟩

theorem start_lockout (t : Nat) : Lockout (start t) := by
  constructor
  · exact Int.add_nonneg (Int.natCast_nonneg t) Int.one_nonneg
  · intro e he
    cases he
  · rintro ip since ⟨hsince, -⟩
    cases hsince
  · rintro ip since ⟨hsince, -⟩
    cases hsince

/-- Where the logins of locked addresses are tested and the locking failure stands alone, no
login of a locked address is evaluated; and whoever is refused has reached the limit. -/
theorem locked_logins_refused (S : Setup) (t : Nat) {es : List Event} {s : Server}
    {os : List Output} (henforced : Along (step S) (Enforced S) (start t) es)
    (hrun : run (step S) (start t) es = some (s, os)) : ∀ o ∈ os, RightAnswer o :=
  run_answers_mem (fun _ _ _ _ h he hstep => step_lockout h he hstep) (start_lockout t)
    henforced hrun

/-- The root directory is protected, and the user has the login form. -/
def sampleSetup : Setup where
  dirs := [[slash]]
  adminWebPageList := ["userLogin"].map ascii
  userWebPageList := ["userLogin"].map ascii
  sha256 := fun _ => ⟨sha256Admin, sha256Admin_length⟩

def sampleRequest : Request where
  requestUri := ascii "/boaform/admin/userLogin"
  cookie := some (ascii "sessionid=1")
  referer := none
  host := none
  queryString := none
  clientStream := []
  remoteIpAddr := ascii "10.0.0.2"

def sampleValues : Values where
  userName := some (ascii "admin")
  userPassword := some (ascii "admin")
  suserName := some (ascii "root")
  suserPassword := some (ascii "root")
  connectedInterface := 0

/-- A form without a user name. -/
def badForm : Form where
  save := ascii "login"
  encodeUsername := []
  encodePassword := []
  webCookie := []

def goodForm : Form where
  save := ascii "login"
  encodeUsername := ascii "8c6976e5b5410415bde908bd4dee15dfb167a9c873fc4bb8a81f6f2ab448a918"
  encodePassword := ascii "8c6976e5b5410415bde908bd4dee15dfb167a9c873fc4bb8a81f6f2ab448a918"
  webCookie := []

def attempt (f : Form) : List Event := [.header sampleRequest, .login 0 sampleValues f]

def threeFailures : List Event := attempt badForm ++ attempt badForm ++ attempt badForm

/-- Nobody is locked while nobody has reached the limit. -/
theorem not_locked {s : Server} (h : s.blocked = fun _ => none) (ip : Bytes) :
    ¬ ∃ since, Locked s ip since := by
  rintro ⟨since, hsince, -⟩
  rw [h] at hsince
  cases hsince

theorem locked_logins_refused_fourth :
    ∃ s os, run (step sampleSetup) (start 100) (threeFailures ++ [.header sampleRequest]) =
      some (s, os) ∧ ∀ o ∈ os, RightAnswer o := by
  have hruns : (run (step sampleSetup) (start 100)
      (threeFailures ++ [.header sampleRequest])).isSome = true := by
    decide +kernel
  obtain ⟨⟨s, os⟩, hrun⟩ := Option.isSome_iff_exists.mp hruns
  refine ⟨s, os, hrun, locked_logins_refused sampleSetup 100 ?_ hrun⟩
  refine ⟨fun _ hlocked => absurd hlocked (not_locked rfl _), ?_⟩
  rintro s₁ o ⟨⟩
  refine ⟨by rintro req ⟨⟩ ⟨⟩, ?_⟩
  rintro s₂ o ⟨⟩
  refine ⟨fun _ hlocked => absurd hlocked (not_locked rfl _), ?_⟩
  rintro s₃ o ⟨⟩
  refine ⟨by rintro req ⟨⟩ ⟨⟩, ?_⟩
  rintro s₄ o ⟨⟩
  refine ⟨fun _ hlocked => absurd hlocked (not_locked rfl _), ?_⟩
  rintro s₅ o ⟨⟩
  constructor
  · rintro req ⟨⟩ - -
    exact ⟨le_rfl, by rintro other ⟨⟩⟩
  · rintro s₆ o ⟨⟩
    refine ⟨fun _ _ => ⟨⟨[slash], rfl, rfl⟩, by rintro i ⟨⟩⟩, fun _ _ _ => trivial⟩

def lateEvaluation : Output → Bool
  | .evaluated now (some since) => decide (now - since < loginErrWaitTime)
  | _ => false

/-- The client has a session before it fails, and then a fourth login is evaluated. -/
theorem session_login_evaluated :
    ¬ ∀ (S : Setup) (t : Nat) (es : List Event) (s : Server) (os : List Output),
      run (step S) (start t) es = some (s, os) → ∀ o ∈ os, RightAnswer o := by
  intro hclaim
  have hlate : (run (step sampleSetup) (start 100) (attempt goodForm ++ threeFailures ++
      attempt badForm)).map (fun r => r.2.getLast?.map lateEvaluation) = some (some true) := by
    decide +kernel
  obtain ⟨⟨s, os⟩, hrun, hos⟩ := Option.map_eq_some_iff.mp hlate
  obtain ⟨o, hlast, ho⟩ := Option.map_eq_some_iff.mp hos
  have hright := hclaim sampleSetup 100 _ s os hrun o (List.mem_of_getLast? hlast)
  unfold lateEvaluation at ho
  split at ho
  · rename_i now since
    have hwait : loginErrWaitTime ≤ now - since := hright since rfl
    exact absurd (of_decide_eq_true ho) (Int.not_lt.mpr hwait)
  · cases ho

end LoginLockout
