import BoaGateway.PageLists

/-!
# The texts of a login

`userLogin` decodes two hexadecimal texts, compares the first with the hashes of two names and
the second with the hash of a stored password. The decoder takes any characters and any even
length, only 32 of its bytes are compared, and a password whose hash is another one becomes an
empty text, which is then compared with the stored password. Here it is said for which texts and
which accounts a session is opened by the two hashes alone.
-/

namespace LoginTexts

open ByteBlocks Texts MibValue BoaLogin WebServer

/-- A text is the hexadecimal form of bytes, with digits in either case. -/
def HexOf : Bytes → Bytes → Prop
  | [], [] => True
  | c :: d :: text, b :: bytes =>
    (∃ x y, digitValue c = some x ∧ digitValue d = some y ∧ x < 16 ∧ y < 16 ∧
      b.toNat = x * 16 + y) ∧ HexOf text bytes
  | _, _ => False

/-- The stored password of the account with a name. -/
def passwordOf (v : Values) (name : Bytes) : Option Bytes :=
  if v.userName = some name then v.userPassword
  else if v.suserName = some name then v.suserPassword
  else none

/-- The texts are the hashes of the name and the password of an account. -/
def Proper (S : Setup) (v : Values) (encodeUsername encodePassword : Bytes) : Prop :=
  ∃ name password, passwordOf v name = some password ∧
    HexOf encodeUsername (S.sha256 name).1 ∧ HexOf encodePassword (S.sha256 password).1

/-- The texts that a login decodes into its buffers. -/
def decoded (v : Values) (f : Form) (ip : Bytes) : List Bytes :=
  if f.save = [] ∨ f.encodeUsername = [] then []
  else
    f.encodeUsername ::
      match loginName v f ip with
      | some (.ok username) => if username = [] ∨ f.encodePassword = [] then [] else [f.encodePassword]
      | _ => []

/-- Every login with these texts stays in its buffers and keeps the list at ten entries, and it
adds one only for the hashes of an account. -/
structure Right (S : Setup) (v : Values) (encodeUsername encodePassword : Bytes) : Prop where
  inside : ∀ save cookie ip, ∀ text ∈ decoded v ⟨save, encodeUsername, encodePassword, cookie⟩ ip,
    (hexStringToBinaryBuf text).isSome
  limit : ∀ b b' req save cookie denied, b.userLoginList.length ≤ 10 →
    userLogin S b req v ⟨save, encodeUsername, encodePassword, cookie⟩ = some (denied, b') →
    b'.userLoginList.length ≤ 10
  entry : ∀ b b' req save cookie denied,
    userLogin S b req v ⟨save, encodeUsername, encodePassword, cookie⟩ = some (denied, b') →
    b.userLoginList.length < b'.userLoginList.length →
    Proper S v encodeUsername encodePassword

/-- The text stays in its buffer, and the first half of the buffer is the hash. -/
def Decodes (text hash : Bytes) : Prop :=
  ∃ buf, hexStringToBinaryBuf text = some buf ∧ buf.1.take 32 = hash

/-- The account that a text is taken for, or an empty text. -/
def named (text : Bytes) : Bytes := ((hexStringToBinaryBuf text).map accountOf).getD []

/-- The password whose hash is compared. -/
def hashedPassword (v : Values) (name : Bytes) : Option Bytes :=
  if name = ascii "admin" then v.userPassword else v.suserPassword

/-- What is accepted: the hash of the stored password, or any other text for an empty one. -/
structure Accepted (S : Setup) (v : Values) (encodeUsername encodePassword password : Bytes) :
    Prop where
  name : named encodeUsername ≠ []
  text : encodePassword ≠ []
  inside : (hexStringToBinaryBuf encodePassword).isSome
  readable : v.userName ≠ none
  stored : passwordOf v (named encodeUsername) = some password
  matched : ∃ q, hashedPassword v (named encodeUsername) = some q ∧
    (Decodes encodePassword (S.sha256 q).1 ∧ q = password ∨
      ¬ Decodes encodePassword (S.sha256 q).1 ∧ password = [])

/-- Exactly the digits of a hash. -/
def Digits (text : Bytes) : Prop := text.length = 64 ∧ ∀ c ∈ text, isxdigit c = true

/-- An even number of digits is at most 128, and a text that is accepted has just the digits of
the hash that it should have. -/
structure Strict (S : Setup) (v : Values) (encodeUsername encodePassword : Bytes) : Prop where
  username : encodeUsername.length % 2 = 0 → encodeUsername.length ≤ 128
  password : named encodeUsername ≠ [] → encodePassword.length % 2 = 0 →
    encodePassword.length ≤ 128
  exact : ∀ password, Accepted S v encodeUsername encodePassword password →
    Digits encodeUsername ∧ Digits encodePassword ∧
      Decodes encodePassword (S.sha256 password).1

/-- What is known of the hash function. -/
structure Hash (S : Setup) (v : Values) : Prop where
  root : (S.sha256 (ascii "root")).1 = sha256Root
  admin : (S.sha256 (ascii "admin")).1 = sha256Admin
  injective : Set.InjOn S.sha256
    {name | name = ascii "root" ∨ name = ascii "admin" ∨ v.userName = some name ∨
      v.suserName = some name}

theorem hexBytes_length {text : Bytes} (h : text.length % 2 = 0) :
    (hexBytes text).length = text.length / 2 := by
  fun_induction hexBytes text with
  | case1 c d s ih =>
    simp only [List.length_cons] at h ⊢
    rw [ih (by omega)]
    omega
  | case2 s hs =>
    match s, hs with
    | [], _ => rfl
    | [_], _ => exact absurd h (by simp)
    | c :: d :: s, hs => exact absurd rfl (hs c d s)

theorem hexStringToBinaryBuf_isSome_iff {text : Bytes} :
    (hexStringToBinaryBuf text).isSome ↔ (text.length % 2 = 0 → text.length ≤ 128) := by
  unfold hexStringToBinaryBuf
  split
  · rename_i hodd
    simp [hodd]
  · rename_i heven
    have heven := not_not.mp heven
    have hlen := hexBytes_length heven
    constructor
    · intro h _
      obtain ⟨buf, hbuf⟩ := Option.isSome_iff_exists.mp h
      have hfit := (Block.write_eq_some_iff.mp hbuf).1
      omega
    · intro h
      have hfit := h heven
      have hroom : (hexBytes text).length ≤ 64 := by omega
      obtain ⟨buf, hbuf, -⟩ := Block.write_head (.zeros 64) hroom
      rw [hbuf]
      rfl

theorem digit_ge {c : UInt8} {x : Nat} (h : digitValue c = some x) : 48 ≤ c.toNat := by
  rw [digitValue] at h
  split at h
  · rename_i hc
    exact UInt8.le_iff_toNat_le.mp hc.1
  split at h
  · rename_i hc
    exact le_trans (by decide) (UInt8.le_iff_toNat_le.mp hc.1)
  split at h
  · rename_i hc
    exact le_trans (by decide) (UInt8.le_iff_toNat_le.mp hc.1)
  · cases h

theorem digit_plain {c : UInt8} {x : Nat} (h : digitValue c = some x) :
    isSpace c = false ∧ c ≠ 0 ∧ c ≠ 43 ∧ c ≠ 45 := by
  have hge := digit_ge h
  have hne {b : UInt8} (hb : b.toNat < 48) : c ≠ b := by
    rintro rfl
    exact absurd hge (Nat.not_le_of_lt hb)
  have hspace : isSpace c = false := by
    rw [← Bool.not_eq_true, isSpace, Bool.or_eq_true, Bool.and_eq_true]
    rintro (hblank | ⟨-, hcontrol⟩)
    · exact hne (by decide) (eq_of_beq hblank)
    · have hle := UInt8.le_iff_toNat_le.mp (of_decide_eq_true hcontrol)
      exact absurd (hge.trans hle) (by decide)
  exact ⟨hspace, hne (by decide), hne (by decide), hne (by decide)⟩

/-- Two digits are decoded as a byte. -/
theorem strtoul_digits {c d : UInt8} {x y : Nat} (hc : digitValue c = some x)
    (hd : digitValue d = some y) (hx : x < 16) (hy : y < 16) :
    strtoul 16 [c, d] = x * 16 + y := by
  obtain ⟨hspace, hc0, hplus, hminus⟩ := digit_plain hc
  obtain ⟨-, hd0, -, -⟩ := digit_plain hd
  have hcstr : cstr [c, d] = [c, d] := cstr_eq_self (by simp [hc0.symm, hd0.symm])
  have hskip : [c, d].dropWhile isSpace = [c, d] :=
    List.dropWhile_cons_of_neg (by simp [hspace])
  have hread : readNumber 16 [c, d] = (false, x * 16 + y) := by
    simp [readNumber, hskip, hplus, hminus, readDigits, hc, hd, hx, hy]
  rw [strtoul, hcstr, hread]
  dsimp only
  rw [if_neg (by omega), if_neg (by decide)]

theorem isxdigit_iff {c : UInt8} : isxdigit c = true ↔ ∃ x, digitValue c = some x ∧ x < 16 := by
  rw [isxdigit, Option.any_eq_true]
  simp

/-- The texts of bytes are the digits that are decoded to them. -/
theorem hexOf_iff {text bytes : Bytes} :
    HexOf text bytes ↔ text.length = 2 * bytes.length ∧ (∀ c ∈ text, isxdigit c = true) ∧
      hexBytes text = bytes := by
  fun_induction HexOf text bytes with
  | case1 => simp [hexBytes]
  | case2 c d text b bytes ih =>
    rw [ih, List.forall_mem_cons, List.forall_mem_cons, hexBytes]
    constructor
    · rintro ⟨⟨x, y, hc, hd, hx, hy, hb⟩, hlen, htext, hbytes⟩
      refine ⟨?_, ⟨isxdigit_iff.mpr ⟨x, hc, hx⟩, isxdigit_iff.mpr ⟨y, hd, hy⟩, htext⟩, ?_⟩
      · simp only [List.length_cons]
        omega
      · rw [strtoul_digits hc hd hx hy, ← hb, UInt8.ofNat_toNat, hbytes]
    · rintro ⟨hlen, ⟨hc, hd, htext⟩, hbytes⟩
      obtain ⟨x, hc, hx⟩ := isxdigit_iff.mp hc
      obtain ⟨y, hd, hy⟩ := isxdigit_iff.mp hd
      obtain ⟨hb, hbytes⟩ := List.cons.inj hbytes
      rw [strtoul_digits hc hd hx hy] at hb
      refine ⟨⟨x, y, hc, hd, hx, hy, ?_⟩, ?_, htext, hbytes⟩
      · rw [← hb, UInt8.toNat_ofNat', Nat.mod_eq_of_lt (by omega)]
      · simp only [List.length_cons] at hlen
        omega
  | case3 text bytes hnil hcons =>
    simp only [false_iff, not_and]
    intro hlen
    match text, bytes, hnil, hcons with
    | [], [], hnil, _ => exact absurd rfl (hnil rfl)
    | [], _ :: _, _, _ => simp at hlen
    | _ :: _, [], _, _ => simp at hlen
    | [_], _ :: _, _, _ =>
      simp only [List.length_cons, List.length_nil] at hlen
      omega
    | c :: d :: text, b :: bytes, _, hcons => exact absurd rfl (hcons c d text b bytes rfl)

/-- For texts of just the digits nothing else is decoded. -/
theorem digits_iff {text hash : Bytes} (hhash : hash.length = 32) :
    HexOf text hash ↔ Digits text ∧ Decodes text hash := by
  rw [hexOf_iff, hhash]
  have hbuf (heven : text.length = 64) : ∃ buf, hexStringToBinaryBuf text = some buf ∧
      buf.1.take 32 = hexBytes text := by
    have hlen : (hexBytes text).length = 32 := by rw [hexBytes_length (by omega), heven]
    have hroom : (hexBytes text).length ≤ 64 := by omega
    obtain ⟨buf, hwrite, hpre⟩ := Block.write_head (.zeros 64) hroom
    refine ⟨buf, ?_, ?_⟩
    · rw [hexStringToBinaryBuf, if_neg (by omega), hwrite]
    · rw [List.prefix_iff_eq_take.mp hpre, hlen]
  constructor
  · rintro ⟨hlen, hdigits, hbytes⟩
    obtain ⟨buf, hdecode, htake⟩ := hbuf hlen
    exact ⟨⟨hlen, hdigits⟩, buf, hdecode, htake.trans hbytes⟩
  · rintro ⟨⟨hlen, hdigits⟩, buf, hdecode, htake⟩
    obtain ⟨buf', hdecode', htake'⟩ := hbuf hlen
    rw [hdecode, Option.some.injEq] at hdecode'
    subst hdecode'
    exact ⟨hlen, hdigits, htake'.symm.trans htake⟩

theorem accountOf_cases (buf : Block 64) :
    accountOf buf = [] ∨ accountOf buf = ascii "root" ∧ buf.1.take 32 = sha256Root ∨
      accountOf buf = ascii "admin" ∧ buf.1.take 32 = sha256Admin := by
  unfold accountOf
  split
  · rename_i h
    exact Or.inr (Or.inl ⟨rfl, h⟩)
  split
  · rename_i h
    exact Or.inr (Or.inr ⟨rfl, h⟩)
  · exact Or.inl rfl

variable {S : Setup} {v : Values} {b b' : Boa} {req : Request} {f : Form} {ip username : Bytes}

theorem loginName_ok (h : loginName v f ip = some (.ok username)) :
    f.save ≠ [] ∧ f.encodeUsername ≠ [] ∧ named f.encodeUsername = username ∧
      (hexStringToBinaryBuf f.encodeUsername).isSome := by
  unfold loginName at h
  split at h
  · cases h
  rename_i hsave
  split at h
  · cases h
  rename_i hne
  split at h
  · cases h
  rename_i buf hbuf
  have hnamed : named f.encodeUsername = accountOf buf := by rw [named, hbuf]; rfl
  refine ⟨hsave, hne, ?_, by rw [hbuf]; rfl⟩
  split at h
  · split at h
    · cases h
    split at h
    · cases h
      exact hnamed
    · cases h
  · cases h
    exact hnamed

theorem checkAccount_ok_iff {password : Bytes} :
    (∃ priv, checkAccount v username password = .ok priv) ↔
      v.userName ≠ none ∧ passwordOf v username = some password := by
  unfold checkAccount passwordOf
  cases huser : v.userName with
  | none => simp
  | some usrName =>
    simp only [ne_eq, reduceCtorEq, not_false_eq_true, true_and, Option.some.injEq]
    by_cases hname : usrName = username
    · rw [if_pos hname, if_pos hname]
      cases v.userPassword with
      | none => simp
      | some usPasswd =>
        by_cases heq : password = usPasswd
        · simp [heq]
        · simp [heq, Ne.symm heq]
    · rw [if_neg hname, if_neg hname]
      cases v.suserName with
      | none => simp
      | some supName =>
        dsimp only
        by_cases hsup : supName = username
        · rw [if_pos hsup, if_pos (congrArg some hsup)]
          cases v.suserPassword with
          | none => simp
          | some suPasswd =>
            by_cases heq : password = suPasswd
            · simp [heq]
            · simp [heq, Ne.symm heq]
        · simp [hsup]

theorem decodes_iff {text hash : Bytes} {buf : Block 64}
    (hbuf : hexStringToBinaryBuf text = some buf) : Decodes text hash ↔ buf.1.take 32 = hash := by
  rw [Decodes, hbuf]
  simp

/-- The second text is tested against the account of the first. -/
theorem checkLogin_ok_iff (hname : named f.encodeUsername = username) :
    (∃ priv, checkLogin S v f username = some (.ok priv)) ↔
      ∃ password, Accepted S v f.encodeUsername f.encodePassword password := by
  rw [checkLogin, ← hashedPassword]
  constructor
  · rintro ⟨priv, h⟩
    split at h
    · cases h
    rename_i hnamed
    split at h
    · cases h
    rename_i htext
    cases hq : hashedPassword v username with
    | none =>
      rw [hq] at h
      obtain ⟨buf, -, herror⟩ := Option.map_eq_some_iff.mp h
      cases herror
    | some q =>
      rw [hq] at h
      obtain ⟨password, hpassword, hok⟩ := Option.map_eq_some_iff.mp h
      obtain ⟨buf, hbuf, rfl⟩ := Option.map_eq_some_iff.mp hpassword
      obtain ⟨hreadable, hstored⟩ := checkAccount_ok_iff.mp ⟨priv, hok⟩
      refine ⟨_, by rwa [hname], htext, by rw [hbuf]; rfl, hreadable, by rwa [hname],
        q, by rwa [hname], ?_⟩
      rw [decodes_iff hbuf]
      by_cases hmatch : buf.1.take 32 = (S.sha256 q).1
      · exact Or.inl ⟨hmatch, (if_pos hmatch).symm⟩
      · exact Or.inr ⟨hmatch, if_neg hmatch⟩
  · rintro ⟨password, hnamed, htext, hinside, hreadable, hstored, q, hq, hmatch⟩
    rw [hname] at hnamed hstored hq
    obtain ⟨buf, hbuf⟩ := Option.isSome_iff_exists.mp hinside
    have hpassword : loginPassword S f q = some password := by
      rw [loginPassword, hbuf, Option.map_some]
      rw [decodes_iff hbuf] at hmatch
      rcases hmatch with ⟨hmatch, rfl⟩ | ⟨hmatch, rfl⟩
      · rw [if_pos hmatch]
      · rw [if_neg hmatch]
    obtain ⟨priv, hok⟩ := checkAccount_ok_iff.mpr ⟨hreadable, hstored⟩
    refine ⟨priv, ?_⟩
    rw [if_neg hnamed, if_neg htext, hq]
    dsimp only
    rw [hpassword, Option.map_some, hok]

theorem openSession_length {priv : Nat} (h : openSession b req f username priv = some (.ok b')) :
    b.userLoginList.length < 10 ∧ b'.userLoginList.length ≤ b.userLoginList.length + 1 := by
  unfold openSession at h
  split at h
  · cases h
  rename_i found hfound
  split at h
  · cases h
  rename_i hroom
  cases h
  refine ⟨Nat.lt_of_not_le hroom, ?_⟩
  cases found with
  | none => exact le_rfl
  | some i =>
    dsimp only
    rw [List.length_modify]
    exact Nat.le_succ _

theorem loginFailed_users (denied : Nat) :
    (loginFailed b req denied).userLoginList = b.userLoginList := by
  unfold loginFailed
  split
  · rfl
  · rfl

/-- A login leaves the list as it is, or it is accepted and there was room for an entry. -/
theorem userLogin_list {denied : Nat} (h : userLogin S b req v f = some (denied, b')) :
    b'.userLoginList = b.userLoginList ∨
      b.userLoginList.length < 10 ∧ b'.userLoginList.length ≤ b.userLoginList.length + 1 ∧
        (hexStringToBinaryBuf f.encodeUsername).isSome ∧
        ∃ password, Accepted S v f.encodeUsername f.encodePassword password := by
  unfold userLogin at h
  split at h
  · cases h
  · rename_i d hname
    obtain ⟨-, rfl⟩ := Prod.mk.inj (Option.some.inj h)
    exact Or.inl (loginFailed_users d)
  · rename_i username hname
    obtain ⟨-, -, hnamed, hinside⟩ := loginName_ok hname
    dsimp only at h
    split at h
    · cases h
    · rename_i d hcheck
      obtain ⟨-, rfl⟩ := Prod.mk.inj (Option.some.inj h)
      exact Or.inl (loginFailed_users d)
    · rename_i priv hcheck
      obtain ⟨res, hopen, heq⟩ := Option.map_eq_some_iff.mp h
      obtain ⟨-, rfl⟩ := Prod.mk.inj heq
      cases res with
      | error d => exact Or.inl (loginFailed_users d)
      | ok b' =>
        obtain ⟨hroom, hlen⟩ := openSession_length hopen
        exact Or.inr ⟨hroom, hlen, hinside, (checkLogin_ok_iff hnamed).mp ⟨priv, hcheck⟩⟩

/-- A client whose address ends as that of root has to. -/
def client : Request where
  requestUri := []
  cookie := none
  referer := none
  host := none
  queryString := none
  clientStream := []
  remoteIpAddr := ascii "192.168.0.254"

variable {encodeUsername encodePassword : Bytes}

theorem named_inside (h : named encodeUsername ≠ []) :
    (hexStringToBinaryBuf encodeUsername).isSome := by
  cases hbuf : hexStringToBinaryBuf encodeUsername with
  | none => exact absurd (by rw [named, hbuf]; rfl) h
  | some buf => rfl

theorem loginName_client (h : named encodeUsername ≠ []) :
    encodeUsername ≠ [] ∧ loginName v ⟨[49], encodeUsername, encodePassword, []⟩ client.remoteIpAddr =
      some (.ok (named encodeUsername)) := by
  have hne : encodeUsername ≠ [] := by
    rintro rfl
    exact h (by decide +kernel)
  obtain ⟨buf, hbuf⟩ := Option.isSome_iff_exists.mp (named_inside h)
  have hnamed : named encodeUsername = accountOf buf := by rw [named, hbuf]; rfl
  have hlen : ¬ (ipv4Text client.remoteIpAddr).length < 3 := by decide +kernel
  have hlast : (ipv4Text client.remoteIpAddr).drop ((ipv4Text client.remoteIpAddr).length - 3) =
      ascii "254" := by decide +kernel
  refine ⟨hne, ?_⟩
  rw [loginName, if_neg (List.cons_ne_nil _ _), if_neg hne, hnamed]
  dsimp only
  rw [hbuf]
  dsimp only
  by_cases hroot : accountOf buf = ascii "root" ∧ v.connectedInterface = 0
  · rw [if_pos hroot, if_neg hlen, if_pos hlast]
  · rw [if_neg hroot]

/-- What is accepted opens a session. -/
theorem userLogin_adds {password : Bytes} (h : Accepted S v encodeUsername encodePassword password) :
    ∃ b', userLogin S (start 0).boa client v ⟨[49], encodeUsername, encodePassword, []⟩ =
      some (0, b') ∧ (start 0).boa.userLoginList.length < b'.userLoginList.length := by
  obtain ⟨priv, hcheck⟩ : ∃ priv, checkLogin S v ⟨[49], encodeUsername, encodePassword, []⟩
      (named encodeUsername) = some (.ok priv) := (checkLogin_ok_iff rfl).mpr ⟨password, h⟩
  have hfound : searchLoginList [] { client with cookie := some [] } = some none := by
    decide +kernel
  have hopen (b : Boa) (hb : b.userLoginList = []) : ∃ b', openSession b client
      ⟨[49], encodeUsername, encodePassword, []⟩ (named encodeUsername) priv = some (.ok b') ∧
        b'.userLoginList = [newUser b client (named encodeUsername) priv] := by
    rw [openSession, hb, hfound]
    exact ⟨_, rfl, rfl⟩
  obtain ⟨b', hb', hlist⟩ := hopen { (start 0).boa with gLoginUsername := named encodeUsername } rfl
  refine ⟨b', ?_, by rw [hlist]; exact Nat.zero_lt_one⟩
  rw [userLogin, (loginName_client h.name).2]
  dsimp only
  rw [hcheck]
  dsimp only
  rw [hb']
  rfl

theorem decodes_named (hash : Hash S v) (h : named encodeUsername ≠ []) :
    Decodes encodeUsername (S.sha256 (named encodeUsername)).1 ∧
      (named encodeUsername = ascii "root" ∨ named encodeUsername = ascii "admin") := by
  obtain ⟨buf, hbuf⟩ := Option.isSome_iff_exists.mp (named_inside h)
  have hnamed : named encodeUsername = accountOf buf := by rw [named, hbuf]; rfl
  rw [decodes_iff hbuf, hnamed]
  rcases accountOf_cases buf with hnil | ⟨haccount, htake⟩ | ⟨haccount, htake⟩
  · exact absurd (hnamed.trans hnil) h
  · rw [haccount, htake, hash.root]
    exact ⟨rfl, Or.inl rfl⟩
  · rw [haccount, htake, hash.admin]
    exact ⟨rfl, Or.inr rfl⟩

theorem right_of_strict (hash : Hash S v) (h : Strict S v encodeUsername encodePassword) :
    Right S v encodeUsername encodePassword := by
  constructor
  · intro save cookie ip text htext
    unfold decoded at htext
    split at htext
    · cases htext
    rcases List.mem_cons.mp htext with rfl | htext
    · exact hexStringToBinaryBuf_isSome_iff.mpr h.username
    split at htext
    · rename_i username hname
      split at htext
      · cases htext
      · rename_i hne
        rw [not_or] at hne
        rw [List.mem_singleton] at htext
        subst htext
        have hnamed := (loginName_ok hname).2.2.1
        exact hexStringToBinaryBuf_isSome_iff.mpr (h.password (hnamed ▸ hne.1))
    · cases htext
  · intro b b' req save cookie denied hlen hlogin
    rcases userLogin_list hlogin with heq | ⟨hroom, hle, -⟩
    · rwa [heq]
    · omega
  · intro b b' req save cookie denied hlogin hadds
    rcases userLogin_list hlogin with heq | ⟨-, -, -, password, haccepted⟩
    · rw [heq] at hadds
      exact absurd hadds (lt_irrefl _)
    · obtain ⟨hname, hpassword, hdecodes⟩ := h.exact password haccepted
      refine ⟨named encodeUsername, password, haccepted.stored, ?_, ?_⟩
      · exact (digits_iff (S.sha256 _).2).mpr ⟨hname, (decodes_named hash haccepted.name).1⟩
      · exact (digits_iff (S.sha256 _).2).mpr ⟨hpassword, hdecodes⟩

theorem strict_of_right (hash : Hash S v) (h : Right S v encodeUsername encodePassword) :
    Strict S v encodeUsername encodePassword := by
  constructor
  · by_cases hne : encodeUsername = []
    · simp [hne]
    · apply hexStringToBinaryBuf_isSome_iff.mp
      apply h.inside [49] [] []
      rw [decoded, if_neg (by simp [hne])]
      exact List.mem_cons_self
  · intro hnamed
    by_cases hne : encodePassword = []
    · simp [hne]
    · obtain ⟨hname, hlogin⟩ : encodeUsername ≠ [] ∧
          loginName v ⟨[49], encodeUsername, encodePassword, []⟩ client.remoteIpAddr =
            some (.ok (named encodeUsername)) := loginName_client hnamed
      apply hexStringToBinaryBuf_isSome_iff.mp
      apply h.inside [49] [] client.remoteIpAddr
      rw [decoded, if_neg (by simp [hname]), hlogin]
      simp [hnamed, hne]
  · intro password haccepted
    obtain ⟨b', hlogin, hadds⟩ := userLogin_adds haccepted
    obtain ⟨name, password', hstored, hname, hpassword⟩ := h.entry _ _ _ _ _ _ hlogin hadds
    obtain ⟨hdigits, hdecodes⟩ := (digits_iff (S.sha256 _).2).mp hname
    obtain ⟨hdecodes', haccount⟩ := decodes_named hash haccepted.name
    have hsame : name = named encodeUsername := by
      obtain ⟨buf, hbuf⟩ := Option.isSome_iff_exists.mp (named_inside haccepted.name)
      rw [decodes_iff hbuf] at hdecodes hdecodes'
      refine hash.injective ?_ ?_ (Subtype.ext (hdecodes.symm.trans hdecodes'))
      · unfold passwordOf at hstored
        split at hstored
        · rename_i huser
          exact Or.inr (Or.inr (Or.inl huser))
        split at hstored
        · rename_i hsuser
          exact Or.inr (Or.inr (Or.inr hsuser))
        · cases hstored
      · rcases haccount with hroot | hadmin
        · exact Or.inl hroot
        · exact Or.inr (Or.inl hadmin)
    rw [hsame, haccepted.stored, Option.some.injEq] at hstored
    obtain ⟨hdigits', hmatch⟩ := (digits_iff (S.sha256 _).2).mp hpassword
    exact ⟨hdigits, hdigits', hstored ▸ hmatch⟩

/-- Two texts open sessions by the hashes of an account alone if and only if they fit into their
buffers and what is accepted has just the digits of the hash that it should have. -/
theorem user_login_iff {S : Setup} {v : Values} (hash : Hash S v)
    (encodeUsername encodePassword : Bytes) :
    Right S v encodeUsername encodePassword ↔ Strict S v encodeUsername encodePassword := by
  constructor
  · exact strict_of_right hash
  · exact right_of_strict hash

/-- The hash of the empty text. -/
def sha256Empty : Bytes :=
  [0xe3, 0xb0, 0xc4, 0x42, 0x98, 0xfc, 0x1c, 0x14, 0x9a, 0xfb, 0xf4, 0xc8, 0x99, 0x6f, 0xb9, 0x24,
   0x27, 0xae, 0x41, 0xe4, 0x64, 0x9b, 0x93, 0x4c, 0xa4, 0x95, 0x99, 0x1b, 0x78, 0x52, 0xb8, 0x55]

/-- The hashes of the texts that occur here. -/
def sampleSetup : Setup where
  dirs := []
  adminWebPageList := []
  userWebPageList := []
  sha256 := fun text =>
    if text = ascii "root" then ⟨sha256Root, sha256Root_length⟩
    else if text = ascii "admin" then ⟨sha256Admin, sha256Admin_length⟩
    else ⟨sha256Empty, rfl⟩

def sampleValues (userPassword : Bytes) : Values where
  userName := some (ascii "admin")
  userPassword := some userPassword
  suserName := some (ascii "root")
  suserPassword := some (ascii "root")
  connectedInterface := 1

theorem sample_hash (userPassword : Bytes) : Hash sampleSetup (sampleValues userPassword) := by
  have hne : ascii "admin" ≠ ascii "root" := by decide +kernel
  have hroot : (sampleSetup.sha256 (ascii "root")).1 = sha256Root := by decide +kernel
  have hadmin : (sampleSetup.sha256 (ascii "admin")).1 = sha256Admin := by decide +kernel
  have hhash : sampleSetup.sha256 (ascii "root") ≠ sampleSetup.sha256 (ascii "admin") := by
    decide +kernel
  have hnames {name : Bytes} (h : name = ascii "root" ∨ name = ascii "admin" ∨
      some (ascii "admin") = some name ∨ some (ascii "root") = some name) :
      name = ascii "root" ∨ name = ascii "admin" := by
    rcases h with rfl | rfl | h | h
    · exact Or.inl rfl
    · exact Or.inr rfl
    · exact Or.inr (Option.some.inj h).symm
    · exact Or.inl (Option.some.inj h).symm
  refine ⟨hroot, hadmin, ?_⟩
  intro name hname other hother heq
  rcases hnames hname with rfl | rfl
  · rcases hnames hother with rfl | rfl
    · rfl
    · exact absurd heq hhash
  · rcases hnames hother with rfl | rfl
    · exact absurd heq.symm hhash
    · rfl

theorem named_adminHash : named PageLists.adminHash = ascii "admin" := by decide +kernel

theorem user_login_admin :
    Right sampleSetup (sampleValues (ascii "admin")) PageLists.adminHash PageLists.adminHash := by
  refine (user_login_iff (sample_hash (ascii "admin")) _ _).mpr
    ⟨by decide +kernel, fun _ => by decide +kernel, ?_⟩
  intro password haccepted
  have hdigits : Digits PageLists.adminHash := by
    constructor
    · decide +kernel
    · decide +kernel
  have hstored : passwordOf (sampleValues (ascii "admin")) (ascii "admin") = some (ascii "admin") := by
    decide +kernel
  have hpassword := haccepted.stored
  rw [named_adminHash, hstored, Option.some.injEq] at hpassword
  have hbuf : (hexStringToBinaryBuf PageLists.adminHash).map (fun buf => buf.1.take 32) =
      some (sampleSetup.sha256 (ascii "admin")).1 := by decide +kernel
  subst hpassword
  exact ⟨hdigits, hdigits, Option.map_eq_some_iff.mp hbuf⟩

/-- With an empty password any other text is accepted. -/
theorem any_text_accepted :
    ¬ ∀ S v encodeUsername encodePassword, Hash S v → Right S v encodeUsername encodePassword := by
  intro h
  have hright := h sampleSetup (sampleValues []) PageLists.adminHash (ascii "00") (sample_hash [])
  have hbuf : hexStringToBinaryBuf (ascii "00") = some (.zeros 64) := by decide +kernel
  have hstored : passwordOf (sampleValues []) (ascii "admin") = some [] := by decide +kernel
  have hhashed : hashedPassword (sampleValues []) (ascii "admin") = some [] := by decide +kernel
  have hother : (Block.zeros 64).1.take 32 ≠ (sampleSetup.sha256 []).1 := by decide +kernel
  have haccepted : Accepted sampleSetup (sampleValues []) PageLists.adminHash (ascii "00") [] := by
    constructor
    · rw [named_adminHash]
      decide +kernel
    · decide +kernel
    · rw [hbuf]
      rfl
    · exact nofun
    · rw [named_adminHash, hstored]
    · rw [named_adminHash]
      exact ⟨[], hhashed, Or.inr ⟨mt (decodes_iff hbuf).mp hother, rfl⟩⟩
  obtain ⟨b', hlogin, hadds⟩ := userLogin_adds haccepted
  obtain ⟨name, password, -, -, htext⟩ := hright.entry _ _ _ _ _ _ hlogin hadds
  have hlen := (hexOf_iff.mp htext).1
  rw [(sampleSetup.sha256 password).2] at hlen
  exact absurd hlen (by decide +kernel)

end LoginTexts
