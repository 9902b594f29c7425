import BoaGateway.Netmask

/-!
# Host and port of a URL

`set_urlport` of `utility.c`. The first colon of the text decides where the host begins and
which form it has; the host ends at a slash or a colon, or at the closing bracket. A port is
looked for at the character that ended the host.
-/

namespace UrlHosts

open ByteBlocks MibValue Netmask

/-- Where the host begins, and whether it is taken for a bracketed IPv6 address. -/
def hostStart (url : Bytes) : Bytes × Bool :=
  let s := url.dropWhile (· != 58)
  if s.getD 1 0 = 47 ∧ s.getD 2 0 = 47 then
    if s.getD 3 0 = 91 then (s.drop 4, true) else (s.drop 3, false)
  else (url, false)

/-- The characters at which the copy stops: the closing bracket, or a slash or a colon. -/
def stops (ipv6 : Bool) (c : UInt8) : Bool := if ipv6 then c == 93 else c == 47 || c == 58

/-- So many rounds of the copy from index `i` on; the character that stops it is written too. -/
def copyLoop {m : Nat} (ipv6 : Bool) (s : Bytes) : Nat → Nat → Block m → Option (Block m × Nat)
  | 0, i, newurl => some (newurl, i)
  | n + 1, i, newurl =>
    match newurl.write i [s.getD i 0] with
    | none => none
    | some newurl =>
      if stops ipv6 (s.getD i 0) then some (newurl, i) else copyLoop ipv6 s n (i + 1) newurl

/-- `atol` for a `long` of so many bits. -/
def atol (long : Long) (s : Bytes) : Int :=
  let (neg, n) := readNumber 10 (cstr s)
  if neg then max (-(n : Int)) (-(2 ^ (long.width - 1)))
  else min (n : Int) (2 ^ (long.width - 1) - 1)

/-- `newurl`, `*port` and the value returned. -/
structure Target (m : Nat) where
  newurl : Block m
  port : Nat
  ret : Int

/-- `set_urlport`; `isAddress` says whether `inet_pton` takes the text for an address of one of
the families, and a null pointer is `none`. A write outside of `newurl` has no result. -/
def setUrlport {m : Nat} (isAddress : Bytes → Bool) (long : Long) (url : Option Bytes)
    (newurl : Block m) : Option (Target m) :=
  match newurl.write 0 [0] with
  | none => none
  | some newurl =>
    let u := cstr (url.getD [])
    if u = [] then some { newurl := newurl, port := 80, ret := -1 }
    else
      let port := if u.take 6 = [104, 116, 116, 112, 115, 58] then 443 else 80
      let (s, ipv6) := hostStart u
      let n := if 256 < s.length then 256 else s.length
      match copyLoop ipv6 s n 0 newurl with
      | none => none
      | some (newurl, i) =>
        match newurl.write i [0] with
        | none => none
        | some newurl =>
          some
            { newurl := newurl
              port := if s.getD i 0 = 58 then u32OfInt (atol long (s.drop (i + 1))) else port
              ret := if isAddress (cstr newurl.1) then 1 else 0 }

/-- A name or an IPv4 address, or an IPv6 address in brackets. -/
inductive Host where
  | plain (name : Bytes)
  | bracketed (addr : Bytes)

def Host.text : Host → Bytes
  | .plain name => name
  | .bracketed addr => 91 :: addr ++ [93]

/-- What is to be stored: the host without brackets. -/
def Host.bare : Host → Bytes
  | .plain name => name
  | .bracketed addr => addr

/-- Names have none of the delimiters, and IPv6 addresses have colons. -/
def Host.WellFormed : Host → Prop
  | .plain name => name ≠ [] ∧ ∀ c ∈ name, c ∉ ([0, 47, 58, 91, 93] : Bytes)
  | .bracketed addr => 58 ∈ addr ∧ ∀ c ∈ addr, c ∉ ([0, 47, 91, 93] : Bytes)

/-- A decimal number of 16 bits. -/
structure Port where
  digits : Bytes
  nonempty : digits ≠ []
  decimal : ∀ c ∈ digits, 48 ≤ c ∧ c ≤ 57
  lt : readDigits 10 0 digits < 2 ^ 16

/-- `[scheme://]host[:port][/path]`, of at most 256 characters. -/
structure Url where
  scheme : Option Bytes
  host : Host
  port : Option Port
  path : Option Bytes
  scheme_wellFormed : ∀ s ∈ scheme, s ≠ [] ∧ ∀ c ∈ s, c ∉ ([0, 47, 58] : Bytes)
  host_wellFormed : host.WellFormed
  path_wellFormed : ∀ s ∈ path, (0 : UInt8) ∉ s
  length_le : ((scheme.elim [] fun s => s ++ [58, 47, 47]) ++ (host.text ++
    ((port.elim [] fun p => 58 :: p.digits) ++ path.elim [] fun s => 47 :: s))).length ≤ 256

def Url.portText (u : Url) : Bytes := u.port.elim [] fun p => 58 :: p.digits

def Url.pathText (u : Url) : Bytes := u.path.elim [] fun s => 47 :: s

/-- The host and what follows it. -/
def Url.rest (u : Url) : Bytes := u.host.text ++ (u.portText ++ u.pathText)

def Url.text (u : Url) : Bytes := (u.scheme.elim [] fun s => s ++ [58, 47, 47]) ++ u.rest

def Url.defaultPort (u : Url) : Nat :=
  if u.scheme = some [104, 116, 116, 112, 115] then 443 else 80

def Url.portNumber (u : Url) : Nat := u.port.elim u.defaultPort fun p => readDigits 10 0 p.digits

/-- The host and the port of the URL are stored. -/
def Right (isAddress : Bytes → Bool) (long : Long) (u : Url) : Prop :=
  ∀ newurl : Block 257, ∃ t, setUrlport isAddress long (some u.text) newurl = some t ∧
    cstr t.newurl.1 = u.host.bare ∧ t.port = u.portNumber

variable {m : Nat} {isAddress : Bytes → Bool} {long : Long} {ipv6 : Bool} {s pre rest : Bytes}

/-- The characters that are copied: those before the first one at which the copy stops. -/
def copied (ipv6 : Bool) (s : Bytes) : Bytes := s.takeWhile fun c => !stops ipv6 c

theorem copyLoop_eq (n : Nat) {i : Nat} {newurl : Block m} {done post : Bytes}
    (hb : newurl.1 = done ++ post) (hi : done.length = i) (hroom : n ≤ post.length)
    (hs : (s.drop i).length = n) :
    ∃ (newurl' : Block m) (post' : Bytes),
      copyLoop ipv6 s n i newurl = some (newurl', i + (copied ipv6 (s.drop i)).length) ∧
      newurl'.1 = done ++ (copied ipv6 (s.drop i) ++ post') ∧
      post.length = (copied ipv6 (s.drop i)).length + post'.length := by
  induction n generalizing i newurl done post with
  | zero =>
    rw [List.eq_nil_of_length_eq_zero hs]
    exact ⟨newurl, post, rfl, hb, (Nat.zero_add _).symm⟩
  | succ n ih =>
    have hlt : i < s.length := by
      rw [List.length_drop] at hs
      omega
    have hget : s.getD i 0 = s[i] := by
      rw [List.getD_eq_getElem?_getD, List.getElem?_eq_getElem hlt, Option.getD_some]
    have hdrop : s.drop i = s[i] :: s.drop (i + 1) := List.drop_eq_getElem_cons hlt
    obtain ⟨newurl₁, hwrite, hb₁⟩ := Block.write_after hb hi
      (show [s[i]].length ≤ post.length by rw [List.length_singleton]; omega)
    rw [copyLoop, hget, hwrite]
    dsimp only
    rw [hdrop, copied, List.takeWhile_cons]
    cases hstop : stops ipv6 s[i] with
    | true =>
      refine ⟨newurl₁, s[i] :: post.drop 1, rfl, ?_, ?_⟩
      · rw [hb₁, List.append_assoc]
        rfl
      · simp only [Bool.not_true, Bool.false_eq_true, if_false, List.length_nil, List.length_cons,
          List.length_drop]
        omega
    | false =>
      obtain ⟨newurl', post', hcopy, hb', hlen⟩ := ih hb₁
        (by rw [List.length_append, List.length_singleton, hi])
        (by rw [List.length_drop, List.length_singleton]; omega)
        (by rw [hdrop, List.length_cons] at hs; omega)
      refine ⟨newurl', post', ?_, ?_, ?_⟩
      · rw [if_neg Bool.false_ne_true, hcopy]
        simp only [Bool.not_false, if_true, List.length_cons, copied]
        congr 2
        omega
      · rw [hb']
        simp [copied]
      · rw [List.length_drop, List.length_singleton] at hlen
        simp only [Bool.not_false, if_true, List.length_cons, copied] at hlen ⊢
        omega

/-- Whatever the text is, the copy ends within its rounds. -/
theorem copyLoop_isSome (n i : Nat) (newurl : Block m) (hroom : i + n ≤ m) :
    ∃ newurl' k, copyLoop ipv6 s n i newurl = some (newurl', k) ∧ k ≤ i + n := by
  induction n generalizing i newurl with
  | zero => exact ⟨newurl, i, rfl, Nat.le_refl _⟩
  | succ n ih =>
    obtain ⟨newurl₁, hwrite⟩ := newurl.write_fits
      (show i + [s.getD i 0].length ≤ m by rw [List.length_singleton]; omega)
    rw [copyLoop, hwrite]
    dsimp only
    split
    · exact ⟨newurl₁, i, rfl, by omega⟩
    · obtain ⟨newurl', k, hcopy, hk⟩ := ih (i + 1) newurl₁ (by omega)
      exact ⟨newurl', k, hcopy, by omega⟩

/-- 257 bytes are enough for every text. -/
theorem setUrlport_isSome (isAddress : Bytes → Bool) (long : Long) (url : Option Bytes)
    (newurl : Block 257) : (setUrlport isAddress long url newurl).isSome := by
  obtain ⟨newurl₁, hwrite⟩ := newurl.write_fits (show 0 + ([0] : Bytes).length ≤ 257 by decide)
  rw [setUrlport, hwrite]
  dsimp only
  split
  · rfl
  · obtain ⟨newurl₂, k, hcopy, hk⟩ := @copyLoop_isSome _ (hostStart (cstr (url.getD []))).2
      (hostStart (cstr (url.getD []))).1
      (if 256 < (hostStart (cstr (url.getD []))).1.length then 256
        else (hostStart (cstr (url.getD []))).1.length) 0 newurl₁ (by split <;> omega)
    have hk' : k ≤ 256 := by
      split at hk <;> omega
    obtain ⟨newurl₃, hend⟩ := newurl₂.write_fits
      (show k + ([0] : Bytes).length ≤ 257 by rw [List.length_singleton]; omega)
    rw [hcopy]
    dsimp only
    rw [hend]
    rfl

/-- The port at the head of what follows the host: only where a colon ended it. -/
def portAt (long : Long) : Bytes → Option Nat
  | 58 :: t => some (u32OfInt (atol long t))
  | _ => none

def portBehind (long : Long) (ipv6 : Bool) (s : Bytes) : Option Nat :=
  portAt long (s.drop (copied ipv6 s).length)

theorem portBehind_getD (k : Nat) (h : k = (copied ipv6 s).length) (default : Nat) :
    (if s.getD k 0 = 58 then u32OfInt (atol long (s.drop (k + 1))) else default) =
      (portBehind long ipv6 s).getD default := by
  subst h
  rw [portBehind]
  set k := (copied ipv6 s).length
  rcases Nat.lt_or_ge k s.length with hlt | hge
  · have hdrop : s.drop k = s[k] :: s.drop (k + 1) := List.drop_eq_getElem_cons hlt
    have hget : s.getD k 0 = s[k] := by
      rw [List.getD_eq_getElem?_getD, List.getElem?_eq_getElem hlt, Option.getD_some]
    rw [hdrop, hget]
    split
    · rename_i hcolon
      rw [hcolon]
      rfl
    · rename_i hother
      rw [portAt, Option.getD_none]
      exact fun t heq => hother (List.cons.inj heq).1
  · have hget : s.getD k 0 = 0 := by
      rw [List.getD_eq_getElem?_getD, List.getElem?_eq_none hge, Option.getD_none]
    rw [List.drop_eq_nil_of_le hge, hget]
    rfl

theorem hostStart_suffix (u : Bytes) : (hostStart u).1 <:+ u := by
  have hcolon : u.dropWhile (· != 58) <:+ u := List.dropWhile_suffix _
  rw [hostStart]
  split
  · split
    · exact (List.drop_suffix 4 _).trans hcolon
    · exact (List.drop_suffix 3 _).trans hcolon
  · exact List.suffix_rfl

/-- For a text of at most 256 characters. -/
theorem setUrlport_eq {u : Bytes} (hne : u ≠ []) (hnul : (0 : UInt8) ∉ u) (hlen : u.length ≤ 256)
    (hstart : hostStart u = (s, ipv6)) (newurl : Block 257) :
    ∃ t, setUrlport isAddress long (some u) newurl = some t ∧
      cstr t.newurl.1 = copied ipv6 s ∧
      t.port = (portBehind long ipv6 s).getD
        (if u.take 6 = [104, 116, 116, 112, 115, 58] then 443 else 80) := by
  have hsub : s <:+ u := by
    have h := hostStart_suffix u
    rwa [hstart] at h
  have hs : s.length ≤ 256 := Nat.le_trans hsub.length_le hlen
  have hfree : (0 : UInt8) ∉ copied ipv6 s := fun h =>
    hnul (hsub.mem ((List.takeWhile_sublist _).mem h))
  obtain ⟨newurl₁, hwrite⟩ := newurl.write_fits (show 0 + ([0] : Bytes).length ≤ 257 by decide)
  obtain ⟨newurl₂, post, hcopy, hb₂, hpost⟩ := @copyLoop_eq _ ipv6 s s.length 0 newurl₁ [] _
    (List.nil_append _).symm rfl (by rw [newurl₁.2]; omega) rfl
  rw [newurl₁.2] at hpost
  simp only [List.drop_zero, Nat.zero_add, List.nil_append] at hcopy hb₂ hpost
  have hshort : (copied ipv6 s).length ≤ s.length := (List.takeWhile_sublist _).length_le
  obtain ⟨newurl₃, hend, hb₃⟩ := Block.write_after hb₂ rfl
    (show ([0] : Bytes).length ≤ post.length by rw [List.length_singleton]; omega)
  refine ⟨{ newurl := newurl₃
            port := (portBehind long ipv6 s).getD
              (if u.take 6 = [104, 116, 116, 112, 115, 58] then 443 else 80)
            ret := if isAddress (cstr newurl₃.1) then 1 else 0 }, ?_, ?_, rfl⟩
  · rw [setUrlport, hwrite]
    dsimp only
    rw [Option.getD_some, Texts.cstr_eq_self hnul, if_neg hne, hstart]
    dsimp only
    rw [if_neg (by omega), hcopy]
    dsimp only
    rw [hend]
    dsimp only
    rw [portBehind_getD _ rfl]
  · rw [hb₃, List.append_assoc, List.singleton_append, Texts.cstr_nul_free hfree]

theorem stops_false_iff {ipv6 : Bool} {c : UInt8} :
    (!stops ipv6 c) = true ↔ if ipv6 then c ≠ 93 else c ≠ 47 ∧ c ≠ 58 := by
  cases ipv6 <;> simp [stops]

/-- What is copied, and what follows it: nothing, or a character that stops the copy. -/
theorem copied_eq_iff {host : Bytes} (hhost : ∀ c ∈ host, (!stops ipv6 c) = true) :
    copied ipv6 s = host ↔ ∃ t, s = host ++ t ∧ ∀ c ∈ t.head?, stops ipv6 c = true := by
  constructor
  · rintro rfl
    refine ⟨s.dropWhile fun c => !stops ipv6 c, List.takeWhile_append_dropWhile.symm, ?_⟩
    intro c hc
    have h := List.head?_dropWhile_not (fun c => !stops ipv6 c) s
    rw [Option.mem_def.mp hc] at h
    simpa using h
  · rintro ⟨t, rfl, ht⟩
    rw [copied, List.takeWhile_append_of_pos hhost]
    cases t with
    | nil => rw [List.takeWhile_nil, List.append_nil]
    | cons c t => rw [List.takeWhile_cons, if_neg (by simp [ht c rfl]), List.append_nil]

theorem portBehind_append {host t : Bytes} (h : copied ipv6 (host ++ t) = host) :
    portBehind long ipv6 (host ++ t) = portAt long t := by
  rw [portBehind, h, List.drop_left]

theorem readDigits_stop {digits t : Bytes} (hdigits : ∀ c ∈ digits, 48 ≤ c ∧ c ≤ 57)
    (ht : ∀ c ∈ t.head?, c = 47) (acc : Nat) :
    readDigits 10 acc (digits ++ t) = readDigits 10 acc digits := by
  induction digits generalizing acc with
  | nil =>
    cases t with
    | nil => rfl
    | cons c t =>
      rw [ht c rfl]
      rfl
  | cons d digits ih =>
    rw [List.cons_append, readDigits, readDigits]
    split
    · rfl
    · split
      · exact ih (fun c hc => hdigits c (List.mem_cons_of_mem d hc)) _
      · rfl

/-- A decimal number is read up to the slash behind it. -/
theorem atol_port (p : Port) {t : Bytes} (ht : ∀ c ∈ t.head?, c = 47) (hnul : (0 : UInt8) ∉ t) :
    u32OfInt (atol long (p.digits ++ t)) = readDigits 10 0 p.digits := by
  obtain ⟨digits, hne, hdec, hlt⟩ := p
  cases digits with
  | nil => exact absurd rfl hne
  | cons d digits =>
    have hd := hdec d (List.mem_cons_self ..)
    have hplain : isSpace d = false ∧ d ≠ 45 ∧ d ≠ 43 := by
      rw [UInt8.le_iff_toNat_le, UInt8.le_iff_toNat_le] at hd
      have hlow : 48 ≤ d.toNat := hd.1
      refine ⟨?_, ?_, ?_⟩
      · rw [Bool.eq_false_iff]
        intro hspace
        rcases TextFiles.isSpace_cases hspace with h | h | h | h | h | h <;>
          exact absurd hlow (by rw [h]; decide)
      · rintro rfl
        exact absurd hlow (by decide)
      · rintro rfl
        exact absurd hlow (by decide)
    have hfree : (0 : UInt8) ∉ d :: digits ++ t := by
      intro h
      rcases List.mem_append.mp h with h | h
      · have hzero := (hdec 0 h).1
        exact absurd hzero (by decide)
      · exact hnul h
    have hread : readNumber 10 (d :: digits ++ t) = (false, readDigits 10 0 (d :: digits)) := by
      rw [← readDigits_stop hdec ht]
      simp [readNumber, hplain]
    have hwidth : 32 ≤ long.width := by
      cases long <;> decide
    have hpow : (2 : Int) ^ 31 ≤ 2 ^ (long.width - 1) :=
      pow_le_pow_right₀ (by decide) (by omega)
    rw [atol, Texts.cstr_eq_self hfree, hread]
    simp only [Bool.false_eq_true, if_false]
    rw [min_eq_left (by omega), u32OfInt, Int.emod_eq_of_lt (by omega) (by omega),
      Int.toNat_natCast]

/-- Behind `://` in a path there is the host again, and no other port. -/
def Coincides (long : Long) (name r : Bytes) : Prop :=
  (∃ t, r = name ++ t ∧
    (t = [] ∨ ∃ t', t = 47 :: t' ∨ t = 58 :: t' ∧ u32OfInt (atol long t') = 80)) ∨
  ∃ t, r = 91 :: (name ++ t) ∧ (t = [] ∨ ∃ t', t = 93 :: t')

/-- The form in which the function reads the URL is its own: with a scheme, an IPv6 address has
no port but the default one; without a scheme, the host is none, and its path does not begin a
URL at its first colon, except for one with the same host. -/
def Fits (long : Long) (u : Url) : Prop :=
  match u.scheme, u.host with
  | some _, .plain _ => True
  | some _, .bracketed _ => u.portNumber = u.defaultPort
  | none, .bracketed _ => False
  | none, .plain name => u.port = none → ∀ r,
      u.pathText.dropWhile (· != 58) = 58 :: 47 :: 47 :: r → Coincides long name r

variable {u : Url}

theorem Url.length_text_le (u : Url) : u.text.length ≤ 256 := u.length_le

theorem Url.pathText_nul_free (u : Url) : (0 : UInt8) ∉ u.pathText := by
  rw [Url.pathText]
  cases h : u.path with
  | none => exact List.not_mem_nil
  | some s =>
    rw [Option.elim_some, List.mem_cons, not_or]
    exact ⟨by decide, u.path_wellFormed s (by rw [h]; rfl)⟩

theorem Url.head_pathText (u : Url) : ∀ c ∈ u.pathText.head?, c = 47 := by
  rw [Url.pathText]
  intro c hc
  cases h : u.path with
  | none =>
    rw [h] at hc
    cases hc
  | some s =>
    rw [h] at hc
    exact (Option.some.inj hc).symm

theorem Url.portText_nul_free (u : Url) : (0 : UInt8) ∉ u.portText := by
  rw [Url.portText]
  cases h : u.port with
  | none => exact List.not_mem_nil
  | some p =>
    rw [Option.elim_some, List.mem_cons, not_or]
    exact ⟨by decide, fun hzero => absurd (p.decimal 0 hzero).1 (by decide)⟩

theorem Host.text_ne_nil {h : Host} (hw : h.WellFormed) : h.text ≠ [] := by
  cases h with
  | plain name => exact hw.1
  | bracketed addr => exact List.cons_ne_nil _ _

theorem Host.text_nul_free {h : Host} (hw : h.WellFormed) : (0 : UInt8) ∉ h.text := by
  cases h with
  | plain name => exact fun hzero => absurd (hw.2 0 hzero) (by decide)
  | bracketed addr =>
    intro hzero
    rw [Host.text, List.cons_append, List.mem_cons, List.mem_append] at hzero
    rcases hzero with hzero | hzero | hzero
    · exact absurd hzero (by decide)
    · exact absurd (hw.2 0 hzero) (by decide)
    · exact absurd hzero (by decide)

theorem Url.rest_nul_free (u : Url) : (0 : UInt8) ∉ u.rest := by
  rw [Url.rest, List.mem_append, List.mem_append, not_or, not_or]
  exact ⟨Host.text_nul_free u.host_wellFormed, u.portText_nul_free, u.pathText_nul_free⟩

theorem Url.text_nul_free (u : Url) : (0 : UInt8) ∉ u.text := by
  rw [Url.text, List.mem_append, not_or]
  refine ⟨?_, u.rest_nul_free⟩
  cases h : u.scheme with
  | none => exact List.not_mem_nil
  | some s =>
    rw [Option.elim_some, List.mem_append, not_or]
    exact ⟨fun hzero => absurd ((u.scheme_wellFormed s (by rw [h]; rfl)).2 0 hzero) (by decide),
      by decide⟩

theorem Url.text_ne_nil (u : Url) : u.text ≠ [] := by
  rw [Url.text, Url.rest, ne_eq, List.append_eq_nil_iff, List.append_eq_nil_iff]
  exact fun h => Host.text_ne_nil u.host_wellFormed h.2.1

/-- The function is right where what it copies is the host and what it takes for the port is. -/
theorem right_iff_of_start (hstart : hostStart u.text = (s, ipv6)) :
    Right isAddress long u ↔ copied ipv6 s = u.host.bare ∧
      (portBehind long ipv6 s).getD
        (if u.text.take 6 = [104, 116, 116, 112, 115, 58] then 443 else 80) = u.portNumber := by
  have heq := @setUrlport_eq isAddress long _ _ _ u.text_ne_nil
    u.text_nul_free u.length_text_le hstart
  constructor
  · intro hright
    obtain ⟨t, ht, hhost, hport⟩ := hright (Block.zeros 257)
    obtain ⟨t', ht', hhost', hport'⟩ := heq (Block.zeros 257)
    cases ht.symm.trans ht'
    exact ⟨hhost'.symm.trans hhost, hport'.symm.trans hport⟩
  · rintro ⟨hhost, hport⟩ newurl
    obtain ⟨t, ht, hhost', hport'⟩ := heq newurl
    exact ⟨t, ht, hhost'.trans hhost, hport'.trans hport⟩

theorem dropWhile_colon {t : Bytes} (h : ∀ c ∈ pre, c ≠ 58) :
    (pre ++ 58 :: t).dropWhile (· != 58) = 58 :: t := by
  rw [List.dropWhile_append_of_pos fun c hc => bne_iff_ne.mpr (h c hc), List.dropWhile_cons,
    if_neg (by simp)]

/-- Behind a scheme. -/
theorem hostStart_scheme {r : Bytes} (h : ∀ c ∈ pre, c ≠ 58) :
    hostStart (pre ++ 58 :: 47 :: 47 :: r) =
      if r.getD 0 0 = 91 then (r.drop 1, true) else (r, false) := by
  rw [hostStart, dropWhile_colon h]
  rfl

/-- Where the first colon has no two slashes behind it, the host begins the text. -/
theorem hostStart_self {u : Bytes} (h : ∀ r, u.dropWhile (· != 58) ≠ 58 :: 47 :: 47 :: r) :
    hostStart u = (u, false) := by
  rw [hostStart, if_neg]
  rintro ⟨hone, htwo⟩
  have hhead := List.head?_dropWhile_not (· != 58) u
  cases hdrop : u.dropWhile (· != 58) with
  | nil =>
    rw [hdrop] at hone
    exact absurd hone (by decide)
  | cons c t =>
    rw [hdrop] at hone htwo hhead
    have hc : c = 58 := by simpa using hhead
    cases t with
    | nil => exact absurd (show (0 : UInt8) = 47 from hone) (by decide)
    | cons d t =>
      cases t with
      | nil => exact absurd (show (0 : UInt8) = 47 from htwo) (by decide)
      | cons e r =>
        obtain rfl : d = 47 := hone
        obtain rfl : e = 47 := htwo
        exact h r (by rw [hdrop, hc])

/-- The texts that begin with `https:` and have no colon before are those of the scheme. -/
theorem take_https_iff {t : Bytes} (h : ∀ c ∈ pre, c ≠ 58) :
    (pre ++ 58 :: t).take 6 = [104, 116, 116, 112, 115, 58] ↔
      pre = [104, 116, 116, 112, 115] := by
  constructor
  · intro htake
    have hsplit := (List.take_append_drop 6 (pre ++ 58 :: t)).symm
    have hwhile : (pre ++ 58 :: t).takeWhile (· != 58) = pre := by
      rw [List.takeWhile_append_of_pos fun c hc => bne_iff_ne.mpr (h c hc), List.takeWhile_cons,
        if_neg (by simp), List.append_nil]
    rw [hsplit, htake] at hwhile
    exact hwhile.symm
  · rintro rfl
    rfl

theorem copied_append {host t : Bytes} (hhost : ∀ c ∈ host, (!stops ipv6 c) = true)
    (ht : ∀ c ∈ t.head?, stops ipv6 c = true) : copied ipv6 (host ++ t) = host :=
  (copied_eq_iff hhost).mpr ⟨t, rfl, ht⟩

theorem Url.head_behind (u : Url) : ∀ c ∈ (u.portText ++ u.pathText).head?,
    stops false c = true := by
  intro c hc
  rw [Url.portText] at hc
  cases h : u.port with
  | none =>
    rw [h, Option.elim_none, List.nil_append] at hc
    rw [u.head_pathText c hc]
    rfl
  | some p =>
    rw [h] at hc
    rw [← Option.some.inj hc]
    rfl

/-- The port behind a plain host is that of the URL. -/
theorem Url.portAt_behind (u : Url) :
    portAt long (u.portText ++ u.pathText) = u.port.map fun p => readDigits 10 0 p.digits := by
  rw [Url.portText]
  cases h : u.port with
  | none =>
    rw [Option.elim_none, List.nil_append, Url.pathText]
    cases u.path <;> rfl
  | some p =>
    rw [Option.elim_some, List.cons_append, portAt,
      atol_port p u.head_pathText u.pathText_nul_free]
    rfl

theorem Url.portNumber_eq (u : Url) :
    u.portNumber = (u.port.map fun p => readDigits 10 0 p.digits).getD u.defaultPort := by
  rw [Url.portNumber]
  cases u.port <;> rfl

/-- A plain host that the function finds where it stands is stored with its port. -/
theorem right_of_plain {name : Bytes} (hhost : u.host = .plain name)
    (hstart : hostStart u.text = (u.rest, false))
    (hport : u.port = none →
      (if u.text.take 6 = [104, 116, 116, 112, 115, 58] then 443 else 80) = u.defaultPort) :
    Right isAddress long u := by
  have hw := u.host_wellFormed
  rw [hhost] at hw
  have hplain : ∀ c ∈ name, (!stops false c) = true := by
    intro c hc
    have h := hw.2 c hc
    simp only [List.mem_cons, not_or] at h
    exact stops_false_iff.mpr ⟨h.2.1, h.2.2.1⟩
  have hrest : u.rest = name ++ (u.portText ++ u.pathText) := by
    rw [Url.rest, hhost]
    rfl
  have hcopied := copied_append hplain u.head_behind
  rw [right_iff_of_start hstart, hrest, portBehind_append hcopied, hhost, u.portAt_behind,
    u.portNumber_eq]
  refine ⟨hcopied, ?_⟩
  cases hp : u.port with
  | none => exact hport hp
  | some p => rfl

theorem not_https_of_no_scheme (hscheme : u.scheme = none) {name : Bytes}
    (hhost : u.host = .plain name) (hport : u.port = none) :
    u.text.take 6 ≠ [104, 116, 116, 112, 115, 58] := by
  have hw := u.host_wellFormed
  rw [hhost] at hw
  have htext : u.text = name ++ u.pathText := by
    rw [Url.text, hscheme, Url.rest, hhost, Url.portText, hport]
    rfl
  intro htake
  have hcolon : ∀ c ∈ name, c ≠ 58 := by
    rintro c hc rfl
    exact hw.2 58 hc (by decide)
  -- the colon is not in the name, and no slash comes before it
  have hsplit := (List.take_append_drop 6 u.text).symm
  have hwhile : u.text.dropWhile (fun c => c != 58 && c != 47) = 58 :: u.text.drop 6 := by
    rw [hsplit, htake]
    rfl
  have hname : ∀ c ∈ name, (c != 58 && c != 47) = true := by
    intro c hc
    have h := hw.2 c hc
    simp only [List.mem_cons, not_or] at h
    simp [h.2.1, h.2.2.1]
  rw [htext, List.dropWhile_append_of_pos hname] at hwhile
  cases hpath : u.pathText with
  | nil =>
    rw [hpath] at hwhile
    cases hwhile
  | cons c t =>
    have hslash := u.head_pathText c (by rw [hpath]; rfl)
    subst hslash
    rw [hpath, List.dropWhile_cons, if_neg (by decide)] at hwhile
    exact absurd (List.cons.inj hwhile).1 (by decide)

theorem Url.scheme_colon_free (u : Url) {sch : Bytes} (hscheme : u.scheme = some sch) :
    ∀ c ∈ sch, c ≠ 58 := by
  rintro c hc rfl
  exact (u.scheme_wellFormed sch (by rw [hscheme]; rfl)).2 58 hc (by decide)

theorem Url.text_scheme (u : Url) {sch : Bytes} (hscheme : u.scheme = some sch) :
    u.text = sch ++ 58 :: 47 :: 47 :: u.rest := by
  rw [Url.text, hscheme, Option.elim_some, List.append_assoc]
  rfl

/-- With a scheme the port is 443 or 80 to begin with, as the scheme says. -/
theorem Url.default_scheme (u : Url) {sch : Bytes} (hscheme : u.scheme = some sch) :
    (if u.text.take 6 = [104, 116, 116, 112, 115, 58] then 443 else 80) = u.defaultPort := by
  rw [u.text_scheme hscheme, Url.defaultPort, hscheme]
  simp only [take_https_iff (u.scheme_colon_free hscheme), Option.some.injEq]

theorem right_scheme_plain {sch name : Bytes} (hscheme : u.scheme = some sch)
    (hhost : u.host = .plain name) : Right isAddress long u := by
  have hw := u.host_wellFormed
  rw [hhost] at hw
  refine right_of_plain hhost ?_ fun _ => u.default_scheme hscheme
  have hopen : u.rest.getD 0 0 ≠ 91 := by
    rw [Url.rest, hhost]
    cases name with
    | nil => exact absurd rfl hw.1
    | cons c name =>
      rintro rfl
      exact hw.2 91 (List.mem_cons_self ..) (by decide)
  rw [u.text_scheme hscheme, hostStart_scheme (u.scheme_colon_free hscheme), if_neg hopen]

theorem Url.rest_bracketed (u : Url) {addr : Bytes} (hhost : u.host = .bracketed addr) :
    u.rest = 91 :: (addr ++ 93 :: (u.portText ++ u.pathText)) := by
  rw [Url.rest, hhost, Host.text, List.cons_append, List.cons_append, List.append_assoc,
    List.singleton_append]

/-- The port behind the closing bracket is not looked at. -/
theorem right_scheme_bracketed {sch addr : Bytes} (hscheme : u.scheme = some sch)
    (hhost : u.host = .bracketed addr) :
    Right isAddress long u ↔ u.portNumber = u.defaultPort := by
  have hw := u.host_wellFormed
  rw [hhost] at hw
  have hplain : ∀ c ∈ addr, (!stops true c) = true := by
    intro c hc
    have h := hw.2 c hc
    simp only [List.mem_cons, not_or] at h
    exact stops_false_iff.mpr h.2.2.2.1
  have hrest := u.rest_bracketed hhost
  have hstart : hostStart u.text = (addr ++ 93 :: (u.portText ++ u.pathText), true) := by
    rw [u.text_scheme hscheme, hostStart_scheme (u.scheme_colon_free hscheme), hrest]
    rfl
  have hcopied : copied true (addr ++ 93 :: (u.portText ++ u.pathText)) = addr :=
    copied_append hplain fun c hc => by rw [← Option.some.inj hc]; rfl
  rw [right_iff_of_start hstart, portBehind_append hcopied, u.default_scheme hscheme, hhost]
  exact ⟨fun h => h.2.symm, fun h => ⟨hcopied, h.symm⟩⟩

theorem Url.text_no_scheme (u : Url) (hscheme : u.scheme = none) : u.text = u.rest := by
  rw [Url.text, hscheme]
  rfl

/-- The bracket is taken for the beginning of a name, which a colon of the address ends. -/
theorem not_right_bracketed {addr : Bytes} (hscheme : u.scheme = none)
    (hhost : u.host = .bracketed addr) : ¬Right isAddress long u := by
  have hw := u.host_wellFormed
  rw [hhost] at hw
  obtain ⟨a, b, haddr, hfirst⟩ := List.eq_append_cons_of_mem hw.1
  have hrest := u.rest_bracketed hhost
  have hbehind : (u.text.dropWhile (· != 58)).getD 1 0 ≠ 47 := by
    have hcolon : ∀ c ∈ (91 :: a : Bytes), c ≠ 58 := by
      rintro c hc rfl
      rcases List.mem_cons.mp hc with hc | hc
      · exact absurd hc (by decide)
      · exact hfirst hc
    have htext : u.text = (91 :: a) ++ 58 :: (b ++ 93 :: (u.portText ++ u.pathText)) := by
      rw [u.text_no_scheme hscheme, hrest, haddr, List.append_assoc, List.cons_append,
        List.cons_append]
    rw [htext, dropWhile_colon hcolon]
    cases b with
    | nil => exact show (93 : UInt8) ≠ 47 by decide
    | cons c b =>
      rintro rfl
      exact hw.2 47 (by rw [haddr]; simp) (by decide)
  intro hright
  have hself : hostStart u.text = (u.text, false) :=
    hostStart_self fun r hr => hbehind (by rw [hr]; rfl)
  obtain ⟨hcopied, -⟩ := (right_iff_of_start hself).mp hright
  have hmem : (58 : UInt8) ∈ copied false u.text := by
    rw [hcopied, hhost]
    exact hw.1
  have hstop := List.mem_takeWhile_imp hmem
  exact absurd hstop (by decide)

theorem Host.plain_stops {name : Bytes} (hw : (Host.plain name).WellFormed) (ipv6 : Bool) :
    ∀ c ∈ name, (!stops ipv6 c) = true := by
  intro c hc
  have h := hw.2 c hc
  simp only [List.mem_cons, not_or] at h
  rw [stops_false_iff]
  cases ipv6
  · exact ⟨h.2.1, h.2.2.1⟩
  · exact h.2.2.2.2.1

/-- What is read behind two slashes is the host again exactly for texts that coincide. -/
theorem read_again {name : Bytes} (hw : (Host.plain name).WellFormed) (r : Bytes) :
    (r.getD 0 0 = 91 → (copied true (r.drop 1) = name ∧
      (portBehind long true (r.drop 1)).getD 80 = 80 ↔ Coincides long name r)) ∧
    (r.getD 0 0 ≠ 91 → (copied false r = name ∧
      (portBehind long false r).getD 80 = 80 ↔ Coincides long name r)) := by
  constructor
  · intro hopen
    cases r with
    | nil => exact absurd hopen (by decide)
    | cons c r =>
      obtain rfl : c = 91 := hopen
      rw [List.drop_one, List.tail_cons]
      constructor
      · rintro ⟨hcopied, -⟩
        obtain ⟨t, rfl, ht⟩ := (copied_eq_iff (Host.plain_stops hw true)).mp hcopied
        refine Or.inr ⟨t, rfl, ?_⟩
        cases t with
        | nil => exact Or.inl rfl
        | cons d t =>
          have hd := ht d rfl
          rw [stops, if_pos rfl, beq_iff_eq] at hd
          exact Or.inr ⟨t, by rw [hd]⟩
      · rintro (⟨t, heq, -⟩ | ⟨t, heq, ht⟩)
        · cases name with
          | nil => exact absurd rfl hw.1
          | cons d name =>
            cases heq
            exact absurd (List.mem_cons_self ..) (fun h => hw.2 91 h (by decide))
        · cases heq
          have hcopied : copied true (name ++ t) = name := by
            refine copied_append (Host.plain_stops hw true) fun d hd => ?_
            rcases ht with rfl | ⟨t', rfl⟩
            · cases hd
            · rw [← Option.some.inj hd]
              rfl
          refine ⟨hcopied, ?_⟩
          rw [portBehind_append hcopied]
          rcases ht with rfl | ⟨t', rfl⟩ <;> rfl
  · intro hopen
    constructor
    · rintro ⟨hcopied, hport⟩
      obtain ⟨t, rfl, ht⟩ := (copied_eq_iff (Host.plain_stops hw false)).mp hcopied
      rw [portBehind_append hcopied] at hport
      refine Or.inl ⟨t, rfl, ?_⟩
      cases t with
      | nil => exact Or.inl rfl
      | cons d t =>
        have hd := ht d rfl
        rw [stops, if_neg Bool.false_ne_true, Bool.or_eq_true, beq_iff_eq, beq_iff_eq] at hd
        rcases hd with rfl | rfl
        · exact Or.inr ⟨t, Or.inl rfl⟩
        · exact Or.inr ⟨t, Or.inr ⟨rfl, hport⟩⟩
    · rintro (⟨t, rfl, ht⟩ | ⟨t, rfl, -⟩)
      · have hcopied : copied false (name ++ t) = name := by
          refine copied_append (Host.plain_stops hw false) fun d hd => ?_
          rcases ht with rfl | ⟨t', rfl | ⟨rfl, -⟩⟩
          · cases hd
          · rw [← Option.some.inj hd]
            rfl
          · rw [← Option.some.inj hd]
            rfl
        refine ⟨hcopied, ?_⟩
        rw [portBehind_append hcopied]
        rcases ht with rfl | ⟨t', rfl | ⟨rfl, hport⟩⟩
        · rfl
        · rfl
        · exact hport
      · exact absurd rfl hopen

/-- Without a scheme, a port keeps the first colon from being taken for a scheme's. -/
theorem right_port {name : Bytes} {p : Port} (hscheme : u.scheme = none)
    (hhost : u.host = .plain name) (hport : u.port = some p) : Right isAddress long u := by
  have hw := u.host_wellFormed
  rw [hhost] at hw
  refine right_of_plain hhost ?_ fun h => absurd (hport.symm.trans h) (Option.some_ne_none p)
  have hcolon : ∀ c ∈ name, c ≠ 58 := by
    rintro c hc rfl
    exact hw.2 58 hc (by decide)
  have hrest : u.rest = name ++ 58 :: (p.digits ++ u.pathText) := by
    rw [Url.rest, hhost, Url.portText, hport]
    rfl
  rw [u.text_no_scheme hscheme]
  refine hostStart_self fun r hr => ?_
  rw [hrest, dropWhile_colon hcolon] at hr
  have hdigit := p.decimal
  cases hdigits : p.digits with
  | nil => exact p.nonempty hdigits
  | cons d digits =>
    rw [hdigits] at hr hdigit
    have hd : d = 47 := (List.cons.inj (List.cons.inj hr).2).1
    exact absurd (hdigit d (List.mem_cons_self ..)).1 (by rw [hd]; decide)

/-- Without a scheme and a port, the first colon is one of the path, and two slashes behind it
make what follows the host. -/
theorem right_path {name : Bytes} (hscheme : u.scheme = none) (hhost : u.host = .plain name)
    (hport : u.port = none) : Right isAddress long u ↔ ∀ r,
      u.pathText.dropWhile (· != 58) = 58 :: 47 :: 47 :: r → Coincides long name r := by
  have hw := u.host_wellFormed
  rw [hhost] at hw
  have hdefault : u.defaultPort = 80 := by
    rw [Url.defaultPort, hscheme]
    rfl
  have hhttps : (if u.text.take 6 = [104, 116, 116, 112, 115, 58] then 443 else 80) = 80 :=
    if_neg (not_https_of_no_scheme hscheme hhost hport)
  have hcolon : ∀ c ∈ name, (c != 58) = true := by
    intro c hc
    rw [bne_iff_ne]
    rintro rfl
    exact hw.2 58 hc (by decide)
  have hdrop : u.text.dropWhile (· != 58) = u.pathText.dropWhile (· != 58) := by
    rw [u.text_no_scheme hscheme, Url.rest, hhost, Url.portText, hport, Option.elim_none,
      List.nil_append]
    exact List.dropWhile_append_of_pos hcolon
  by_cases hslash : ∃ r, u.pathText.dropWhile (· != 58) = 58 :: 47 :: 47 :: r
  · obtain ⟨r, hr⟩ := hslash
    have hall : (∀ r', u.pathText.dropWhile (· != 58) = 58 :: 47 :: 47 :: r' →
        Coincides long name r') ↔ Coincides long name r := by
      constructor
      · exact fun h => h r hr
      · intro h r' hr'
        cases hr.symm.trans hr'
        exact h
    rw [hall]
    have hstart : hostStart u.text = if r.getD 0 0 = 91 then (r.drop 1, true) else (r, false) := by
      rw [hostStart, hdrop, hr]
      rfl
    have hnumber : u.portNumber = 80 := by
      rw [Url.portNumber, hport, Option.elim_none, hdefault]
    have hread := @read_again long _ hw r
    split at hstart
    · rename_i hopen
      rw [right_iff_of_start hstart, hhttps, hhost, hnumber, ← hread.1 hopen]
      rfl
    · rename_i hopen
      rw [right_iff_of_start hstart, hhttps, hhost, hnumber, ← hread.2 hopen]
      rfl
  · refine iff_of_true ?_ fun r hr => absurd ⟨r, hr⟩ hslash
    refine right_of_plain hhost ?_ fun _ => hhttps.trans hdefault.symm
    rw [← u.text_no_scheme hscheme]
    exact hostStart_self fun r hr => hslash ⟨r, hdrop.symm.trans hr⟩

/-- The URL is read as it is exactly where it has one of the forms that fit, and the 257 bytes
are enough for every text. -/
theorem urlport_iff (isAddress : Bytes → Bool) (long : Long) :
    (∀ u, Right isAddress long u ↔ Fits long u) ∧
      ∀ url (newurl : Block 257), (setUrlport isAddress long url newurl).isSome := by
  refine ⟨fun u => ?_, setUrlport_isSome isAddress long⟩
  rw [Fits]
  cases hscheme : u.scheme with
  | some sch =>
    cases hhost : u.host with
    | plain name => exact iff_of_true (right_scheme_plain hscheme hhost) trivial
    | bracketed addr => exact right_scheme_bracketed hscheme hhost
  | none =>
    cases hhost : u.host with
    | bracketed addr => exact iff_of_false (not_right_bracketed hscheme hhost) id
    | plain name =>
      cases hport : u.port with
      | none =>
        refine (right_path hscheme hhost hport).trans ?_
        exact ⟨fun h _ => h, fun h => h rfl⟩
      | some p =>
        refine iff_of_true (right_port hscheme hhost hport) fun h => ?_
        cases h

/-- `http://[::1]:8080/`. -/
def sampleUrl : Url where
  scheme := some [104, 116, 116, 112]
  host := .bracketed [58, 58, 49]
  port := some
    { digits := [56, 48, 56, 48]
      nonempty := List.cons_ne_nil _ _
      decimal := by simp
      lt := by decide }
  path := some []
  scheme_wellFormed := by
    intro s hs
    cases hs
    exact ⟨List.cons_ne_nil _ _, by simp⟩
  host_wellFormed := by
    constructor
    · exact List.mem_cons_self
    · simp
  path_wellFormed := by
    intro s hs
    cases hs
    exact List.not_mem_nil
  length_le := by decide

/-- The port comes out as 80. -/
theorem bracketed_port_lost : ¬Right (fun _ => true) .bits32 sampleUrl := by
  rw [right_scheme_bracketed rfl rfl]
  decide

end UrlHosts
