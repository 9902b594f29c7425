import BoaGateway.Md5
import BoaGateway.TranslateUri

/-!
# The hashes of Digest Authorization

`http_da_calc_HA1` and `http_da_calc_response` of `auth.c` feed their texts to MD5 piece by piece,
with colons between them. The array of a context is used again without being cleared.
-/

namespace DigestHash

open ByteBlocks Texts TranslateUri Md5

def colon : Bytes := [58]

def hexDigit (n : UInt8) : UInt8 := if n < 10 then 48 + n else 87 + n

/-- `s2hex`, with `%02x` for each byte. -/
def s2hex (src : Bytes) : Bytes := src.flatMap fun b => [hexDigit (b / 16), hexDigit (b % 16)]

/-- `strncasecmp` with a text of so many characters gives 0. -/
def begins (s text : Bytes) : Bool := ((cstr s).take text.length).map toLower == text.map toLower

/-- `MD5Init`, the updates and `MD5Final`. -/
def digestOf (data : Block 64) (pieces : List Bytes) : Option Bytes :=
  (pieces.foldlM update (init data)).bind final

/-- `http_da_calc_HA1`; the array of the context holds other bytes at its second use. -/
def calcHA1 (data data' : Block 64) (alg : Option Bytes) (userid realm passwd nonce cnonce : Bytes) :
    Option Bytes :=
  (digestOf data [cstr userid, colon, cstr realm, colon, cstr passwd]).bind fun ha1 =>
    match alg with
    | none => some (s2hex ha1)
    | some alg =>
      if begins alg (ascii "MD5-session") = true then some (s2hex ha1)
      else (digestOf data' [ha1, colon, cstr nonce, colon, cstr cnonce]).map s2hex

/-- `http_da_calc_response`. -/
def calcResponse (data data' : Block 64) (ha1hex nonce ncount cnonce : Bytes) (qop : Option Bytes)
    (method uri entityHAhex : Bytes) : Option Bytes :=
  -- `strncasecmp` reads `qop` before it is looked at
  match qop with
  | none => none
  | some qop =>
    let entity := if begins qop (ascii "auth-int") = true then [colon, entityHAhex.take 32] else []
    (digestOf data ([cstr method, colon, cstr uri] ++ entity)).bind fun ha2 =>
      let counted := if cstr qop = [] then []
        else [cstr ncount, colon, cstr cnonce, colon, cstr qop, colon]
      (digestOf data' ([ha1hex.take 32, colon, cstr nonce, colon] ++ counted ++
        [(s2hex ha2).take 32])).map s2hex

/-- Texts with colons between them. -/
def joined (texts : List Bytes) : Bytes := colon.intercalate texts

/-- The session variant is used for each algorithm but the one that is named so. -/
def hashA1 (alg : Option Bytes) (userid realm passwd nonce cnonce : Bytes) : Bytes :=
  let plain := md5 (joined [cstr userid, cstr realm, cstr passwd])
  if ∃ a ∈ alg, begins a (ascii "MD5-session") = false then
    md5 (joined [plain, cstr nonce, cstr cnonce])
  else plain

def hashA2 (qop method uri entityHAhex : Bytes) : Bytes :=
  md5 (joined ([cstr method, cstr uri] ++
    if begins qop (ascii "auth-int") = true then [entityHAhex.take 32] else []))

def response (ha1 ha2 nonce ncount cnonce qop : Bytes) : Bytes :=
  md5 (joined ([s2hex ha1, cstr nonce] ++
    (if cstr qop = [] then [] else [cstr ncount, cstr cnonce, cstr qop]) ++ [s2hex ha2]))

/-- The lengths are those of an `unsigned int`. -/
def Short (texts : List Bytes) : Prop := ∀ t ∈ texts, t.length < 2 ^ 32

theorem short_intersperse {texts : List Bytes} (h : Short texts) :
    Short (texts.intersperse colon) := by
  induction texts with
  | nil => exact h
  | cons t texts ih =>
    cases texts with
    | nil => exact h
    | cons u texts =>
      obtain ⟨ht, hrest⟩ := List.forall_mem_cons.mp h
      refine List.forall_mem_cons.mpr ⟨ht, List.forall_mem_cons.mpr ⟨?_, ih hrest⟩⟩
      decide

theorem digestOf_joined (data : Block 64) {texts : List Bytes} (h : Short texts) :
    digestOf data (texts.intersperse colon) = some (md5 (joined texts)) :=
  md5_pieces data (texts.intersperse colon) (short_intersperse h)

theorem s2hex_length (src : Bytes) : (s2hex src).length = 2 * src.length := by
  induction src with
  | nil => rfl
  | cons b src ih =>
    have hcons : s2hex (b :: src) = [hexDigit (b / 16), hexDigit (b % 16)] ++ s2hex src := rfl
    rw [hcons, List.length_append, ih, List.length_cons]
    simp only [List.length_cons, List.length_nil]
    omega

theorem md5_length (msg : Bytes) : (md5 msg).length = 16 := rfl

theorem hex_take {ha : Bytes} (h : ha.length = 16) : (s2hex ha).take 32 = s2hex ha := by
  apply List.take_of_length_le
  rw [s2hex_length, h]

theorem hex_short {ha : Bytes} (h : ha.length = 16) : (s2hex ha).length < 2 ^ 32 := by
  rw [s2hex_length, h]
  decide

theorem hashA1_length (alg : Option Bytes) (userid realm passwd nonce cnonce : Bytes) :
    (hashA1 alg userid realm passwd nonce cnonce).length = 16 := by
  unfold hashA1
  dsimp only
  split
  · exact md5_length _
  · exact md5_length _

variable {data data' : Block 64} {alg : Option Bytes}
  {userid realm passwd nonce cnonce ncount qop method uri entityHAhex : Bytes}

theorem calcHA1_eq (hplain : Short [cstr userid, cstr realm, cstr passwd])
    (hsession : Short [cstr nonce, cstr cnonce]) :
    calcHA1 data data' alg userid realm passwd nonce cnonce =
      some (s2hex (hashA1 alg userid realm passwd nonce cnonce)) := by
  have hfirst : digestOf data [cstr userid, colon, cstr realm, colon, cstr passwd] =
      some (md5 (joined [cstr userid, cstr realm, cstr passwd])) := digestOf_joined data hplain
  rw [calcHA1, hfirst, Option.bind_some]
  cases alg with
  | none => rfl
  | some a =>
    dsimp only
    by_cases hnamed : begins a (ascii "MD5-session") = true
    · rw [if_pos hnamed, hashA1, if_neg]
      simp [hnamed]
    · have hlength : (md5 (joined [cstr userid, cstr realm, cstr passwd])).length < 2 ^ 32 := by
        rw [md5_length]
        decide
      have hsecond : digestOf data' [md5 (joined [cstr userid, cstr realm, cstr passwd]), colon,
          cstr nonce, colon, cstr cnonce] =
            some (md5 (joined [md5 (joined [cstr userid, cstr realm, cstr passwd]), cstr nonce,
              cstr cnonce])) :=
        digestOf_joined data' (List.forall_mem_cons.mpr ⟨hlength, hsession⟩)
      rw [if_neg hnamed, hsecond, Option.map_some, hashA1, if_pos]
      exact ⟨a, rfl, by simpa using hnamed⟩

/-- The pieces behind the method and the address are joined to them by a colon. -/
theorem calcHA2_eq (hshort : Short [cstr method, cstr uri]) :
    digestOf data ([cstr method, colon, cstr uri] ++
      if begins qop (ascii "auth-int") = true then [colon, entityHAhex.take 32] else []) =
        some (hashA2 qop method uri entityHAhex) := by
  unfold hashA2
  split
  · have hentity : Short ([cstr method, cstr uri] ++ [entityHAhex.take 32]) := by
      refine List.forall_mem_append.mpr ⟨hshort, List.forall_mem_singleton.mpr ?_⟩
      exact Nat.lt_of_le_of_lt (List.length_take_le 32 entityHAhex) (by decide)
    exact digestOf_joined data hentity
  · exact digestOf_joined data hshort

theorem calcResponse_eq {ha1 : Bytes} (hha1 : ha1.length = 16)
    (hshort : Short [cstr method, cstr uri])
    (hcounted : Short [cstr nonce, cstr ncount, cstr cnonce, cstr qop]) :
    calcResponse data data' (s2hex ha1) nonce ncount cnonce (some qop) method uri entityHAhex =
      some (s2hex (response ha1 (hashA2 qop method uri entityHAhex) nonce ncount cnonce qop)) := by
  have hha2 : (hashA2 qop method uri entityHAhex).length = 16 := md5_length _
  simp only [Short, List.forall_mem_cons] at hcounted
  obtain ⟨hnonce, hncount, hcnonce, hqop, -⟩ := hcounted
  have hlength := hex_short hha1
  have hlength' := hex_short hha2
  unfold calcResponse
  dsimp only
  rw [calcHA2_eq hshort, Option.bind_some, hex_take hha1, hex_take hha2, response]
  split
  · have hall : Short ([s2hex ha1, cstr nonce] ++ [] ++
        [s2hex (hashA2 qop method uri entityHAhex)]) := by
      rintro t ht
      simp only [List.append_nil, List.cons_append, List.nil_append, List.mem_cons,
        List.not_mem_nil, or_false] at ht
      rcases ht with rfl | rfl | rfl
      · exact hlength
      · exact hnonce
      · exact hlength'
    exact congrArg (Option.map s2hex) (digestOf_joined data' hall)
  · have hall : Short ([s2hex ha1, cstr nonce] ++ [cstr ncount, cstr cnonce, cstr qop] ++
        [s2hex (hashA2 qop method uri entityHAhex)]) := by
      rintro t ht
      simp only [List.cons_append, List.nil_append, List.mem_cons, List.not_mem_nil,
        or_false] at ht
      rcases ht with rfl | rfl | rfl | rfl | rfl | rfl
      · exact hlength
      · exact hnonce
      · exact hncount
      · exact hcnonce
      · exact hqop
      · exact hlength'
    exact congrArg (Option.map s2hex) (digestOf_joined data' hall)

/-- The response that the server expects is the hash of the joined texts. -/
theorem digest_response (hplain : Short [cstr userid, cstr realm, cstr passwd])
    (hcounted : Short [cstr nonce, cstr ncount, cstr cnonce, cstr qop])
    (haddress : Short [cstr method, cstr uri]) (data₁ data₂ data₃ data₄ : Block 64) :
    ((calcHA1 data₁ data₂ alg userid realm passwd nonce cnonce).bind fun ha1hex =>
      calcResponse data₃ data₄ ha1hex nonce ncount cnonce (some qop) method uri entityHAhex) =
        some (s2hex (response (hashA1 alg userid realm passwd nonce cnonce)
          (hashA2 qop method uri entityHAhex) nonce ncount cnonce qop)) := by
  have hsession : Short [cstr nonce, cstr cnonce] := by
    intro t ht
    rcases List.mem_pair.mp ht with rfl | rfl
    · exact hcounted _ (by simp)
    · exact hcounted _ (by simp)
  rw [calcHA1_eq hplain hsession]
  exact calcResponse_eq (hashA1_length alg userid realm passwd nonce cnonce) haddress hcounted

theorem digest_response_sample :
    ((calcHA1 (Block.zeros 64) (Block.zeros 64) none (ascii "Mufasa") (ascii "testrealm@host.com")
        (ascii "Circle Of Life") (ascii "dcd98b7102dd2f0e8b11d0f600bfb0c093")
        (ascii "0a4f113b")).bind fun ha1hex =>
      calcResponse (Block.zeros 64) (Block.zeros 64) ha1hex
        (ascii "dcd98b7102dd2f0e8b11d0f600bfb0c093") (ascii "00000001") (ascii "0a4f113b")
        (some (ascii "auth")) (ascii "GET") (ascii "/dir/index.html") []) =
      some (s2hex (response (hashA1 none (ascii "Mufasa") (ascii "testrealm@host.com")
          (ascii "Circle Of Life") (ascii "dcd98b7102dd2f0e8b11d0f600bfb0c093") (ascii "0a4f113b"))
        (hashA2 (ascii "auth") (ascii "GET") (ascii "/dir/index.html") [])
        (ascii "dcd98b7102dd2f0e8b11d0f600bfb0c093") (ascii "00000001") (ascii "0a4f113b")
        (ascii "auth"))) := by
  apply digest_response
  · unfold Short
    decide +kernel
  · unfold Short
    decide +kernel
  · unfold Short
    decide +kernel

example : s2hex (response (hashA1 none (ascii "Mufasa") (ascii "testrealm@host.com")
      (ascii "Circle Of Life") (ascii "dcd98b7102dd2f0e8b11d0f600bfb0c093") (ascii "0a4f113b"))
    (hashA2 (ascii "auth") (ascii "GET") (ascii "/dir/index.html") [])
    (ascii "dcd98b7102dd2f0e8b11d0f600bfb0c093") (ascii "00000001") (ascii "0a4f113b")
    (ascii "auth")) = ascii "6629fae49393a05397450978507c4ef1" := by
  decide +kernel

end DigestHash
