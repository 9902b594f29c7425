import BoaGateway.TextFiles

/-!
# Internet addresses as texts

`inet_pton` for both families, as C libraries write it: one pass over the text with the bytes that
are stored, the group under way and the place of `::`. Texts of whole groups of two bytes and
texts of four numbers are read back.
-/

namespace InetText

open ByteBlocks MibValue TextFiles

/-- The numbers behind those that are done; `cur` is the one under way. -/
def readOctets : Bytes → Bytes → Option Nat → Option Bytes
  | [], tmp, cur =>
    match cur with
    | some v => if tmp.length = 3 then some (tmp ++ [UInt8.ofNat v]) else none
    | none => none
  | ch :: src, tmp, cur =>
    if isDigit 10 ch then
      let d := ch.toNat - 48
      match cur with
      | none => readOctets src tmp (some d)
      | some v => if v = 0 ∨ 255 < v * 10 + d then none else readOctets src tmp (some (v * 10 + d))
    else
      match cur with
      | none => none
      | some v =>
        if ch = 46 ∧ tmp.length < 3 then readOctets src (tmp ++ [UInt8.ofNat v]) none else none

/-- `inet_pton(AF_INET, …)`. -/
def inetPton4 (src : Bytes) : Option Bytes := readOctets src [] none

/-- `%d.%d.%d.%d`. -/
def dottedText (a : Bytes) : Bytes := [46].intercalate (a.map fun c => numeral 10 c.toNat)

theorem digitByte_dec {d : Nat} (hd : d < 10) :
    isDigit 10 (digitByte d) = true ∧ (digitByte d).toNat - 48 = d := by
  have hall : ∀ k : Fin 10, isDigit 10 (digitByte k) = true ∧ (digitByte k).toNat - 48 = k.val := by
    decide
  exact hall ⟨d, hd⟩

theorem numeral_step {base n : Nat} (hbase : 1 < base) (hn : base ≤ n) :
    numeral base n = numeral base (n / base) ++ [digitByte (n % base)] := by
  have hzero : n ≠ 0 := by omega
  have hdiv : n / base ≠ 0 := Nat.div_ne_zero_iff.mpr ⟨by omega, hn⟩
  rw [numeral, if_neg hzero, numeral, if_neg hdiv, Nat.digits_def' hbase (by omega),
    List.reverse_cons, List.map_append]
  rfl

theorem numeral_digit {base n : Nat} (hn : n < base) :
    numeral base n = [digitByte n] := by
  rw [numeral]
  split
  · rename_i h
    rw [h]
  · rename_i h
    rw [Nat.digits_of_lt base n h hn]
    rfl

/-- A number of a byte is read, whatever stands behind it. -/
theorem readOctets_numeral {n : Nat} (hn : n ≤ 255) (tmp rest : Bytes) :
    readOctets (numeral 10 n ++ rest) tmp none = readOctets rest tmp (some n) := by
  induction n using Nat.strong_induction_on generalizing rest with
  | _ n ih =>
    rcases Nat.lt_or_ge n 10 with h | h
    · obtain ⟨hdigit, hvalue⟩ := digitByte_dec h
      rw [numeral_digit h, List.singleton_append, readOctets, if_pos hdigit]
      dsimp only
      rw [hvalue]
    · obtain ⟨hdigit, hvalue⟩ := digitByte_dec (Nat.mod_lt n (by decide : 0 < 10))
      have hrun := ih (n / 10) (by omega) (by omega) (digitByte (n % 10) :: rest)
      rw [numeral_step (by decide) h, List.append_assoc, List.singleton_append, hrun, readOctets,
        if_pos hdigit]
      dsimp only
      rw [hvalue, if_neg (by omega), Nat.mul_comm, Nat.div_add_mod]

theorem readOctets_dot {v : Nat} {tmp : Bytes} (htmp : tmp.length < 3) (src : Bytes) :
    readOctets (46 :: src) tmp (some v) = readOctets src (tmp ++ [UInt8.ofNat v]) none := by
  have hdot : isDigit 10 46 = false := by decide
  rw [readOctets, if_neg (by rw [hdot]; decide)]
  exact if_pos ⟨rfl, htmp⟩

/-- A text of four numbers is read back. -/
theorem inetPton4_dotted {a : Bytes} (ha : a.length = 4) : inetPton4 (dottedText a) = some a := by
  obtain ⟨w, x, y, z, rfl⟩ := List.length_eq_four.mp ha
  have hbyte (c : UInt8) : c.toNat ≤ 255 := Nat.le_of_lt_succ c.toNat_lt
  have htext : dottedText [w, x, y, z] = numeral 10 w.toNat ++ (46 :: (numeral 10 x.toNat ++
      (46 :: (numeral 10 y.toNat ++ (46 :: (numeral 10 z.toNat ++ [])))))) := by
    simp [dottedText, List.intercalate]
  rw [inetPton4, htext, readOctets_numeral (hbyte w), readOctets_dot (by simp),
    readOctets_numeral (hbyte x), readOctets_dot (by simp), readOctets_numeral (hbyte y),
    readOctets_dot (by simp), readOctets_numeral (hbyte z)]
  simp [readOctets]

/-- What is read of an address of IPv6. -/
structure Reading where
  tp : Bytes
  colonp : Option Nat
  curtok : Bytes
  digits : Nat
  val : Nat

/-- The group under way is stored. -/
def Reading.store (r : Reading) : Option Reading :=
  if 16 < r.tp.length + 2 then none
  else some { r with
    tp := r.tp ++ [UInt8.ofNat (r.val / 256), UInt8.ofNat r.val]
    digits := 0
    val := 0 }

def readGroups : Bytes → Reading → Option Reading
  | [], r => some r
  | ch :: src, r =>
    if isDigit 16 ch then
      if r.digits = 4 then none
      else readGroups src { r with
        val := r.val * 16 + (digitValue ch).getD 0
        digits := r.digits + 1 }
    else if ch = 58 then
      if r.digits = 0 then
        if r.colonp.isSome then none
        else readGroups src { r with curtok := src, colonp := some r.tp.length }
      else if src = [] then none
      else r.store.bind fun r => readGroups src { r with curtok := src }
    else if ch = 46 ∧ r.tp.length + 4 ≤ 16 then
      -- The address ends with one of IPv4.
      (inetPton4 r.curtok).map fun a => { r with tp := r.tp ++ a, digits := 0 }
    else none

/-- The end of the text: the bytes behind `::` go to the end of the address. -/
def Reading.finish (r : Reading) : Option Bytes :=
  (if r.digits = 0 then some r else r.store).bind fun r =>
    match r.colonp with
    | some k =>
      if r.tp.length = 16 then none
      else some (r.tp.take k ++ List.replicate (16 - r.tp.length) 0 ++ r.tp.drop k)
    | none => if r.tp.length = 16 then some r.tp else none

/-- `inet_pton(AF_INET6, …)`. -/
def inetPton6 (src : Bytes) : Option Bytes :=
  match src with
  | 58 :: src =>
    if src.head? = some 58 then (readGroups src ⟨[], none, src, 0, 0⟩).bind (·.finish) else none
  | src => (readGroups src ⟨[], none, src, 0, 0⟩).bind (·.finish)

/-- A byte in two digits. -/
def hexPair (b : UInt8) : Bytes := [digitByte (b.toNat / 16), digitByte (b.toNat % 16)]

/-- Groups of two bytes, each with a colon behind it. -/
def groupText : Bytes → Bytes
  | a :: b :: l => hexPair a ++ hexPair b ++ 58 :: groupText l
  | _ => []

/-- A list without a group has at most one byte. -/
theorem no_group {l : Bytes} (h : ∀ a b t, l = a :: b :: t → False) : l = [] ∨ ∃ a, l = [a] := by
  cases l with
  | nil => exact Or.inl rfl
  | cons a t =>
    cases t with
    | nil => exact Or.inr ⟨a, rfl⟩
    | cons b t => exact absurd rfl (h a b t)

theorem isDigit_hex {d : Nat} (hd : d < 16) : isDigit 16 (digitByte d) = true := by
  rw [isDigit, (digitByte_value hd).1]
  exact decide_eq_true hd

/-- One digit of a group. -/
theorem readGroups_digit {d : Nat} (hd : d < 16) {r : Reading} (hr : r.digits < 4) (src : Bytes) :
    readGroups (digitByte d :: src) r =
      readGroups src { r with val := r.val * 16 + d, digits := r.digits + 1 } := by
  rw [readGroups, if_pos (isDigit_hex hd), if_neg (by omega), (digitByte_value hd).1]
  rfl

/-- A whole group. -/
theorem readGroups_group (a b : UInt8) (tp curtok src : Bytes) (colonp : Option Nat) :
    readGroups (hexPair a ++ hexPair b ++ src) ⟨tp, colonp, curtok, 0, 0⟩ =
      readGroups src ⟨tp, colonp, curtok, 4, a.toNat * 256 + b.toNat⟩ := by
  have ha : a.toNat / 16 < 16 := by have := a.toNat_lt; omega
  have hb : b.toNat / 16 < 16 := by have := b.toNat_lt; omega
  have hlow (n : Nat) : n % 16 < 16 := Nat.mod_lt n (by decide)
  have hval : (((0 * 16 + a.toNat / 16) * 16 + a.toNat % 16) * 16 + b.toNat / 16) * 16 +
      b.toNat % 16 = a.toNat * 256 + b.toNat := by omega
  simp only [hexPair, List.cons_append, List.nil_append]
  rw [readGroups_digit ha (Nat.zero_lt_succ 3), readGroups_digit (hlow _) (by decide : 0 + 1 < 4),
    readGroups_digit hb (by decide : 0 + 1 + 1 < 4),
    readGroups_digit (hlow _) (by decide : 0 + 1 + 1 + 1 < 4)]
  dsimp only
  rw [hval]

theorem store_group (a b : UInt8) {tp : Bytes} (htp : tp.length + 2 ≤ 16) (curtok : Bytes)
    (colonp : Option Nat) :
    Reading.store ⟨tp, colonp, curtok, 4, a.toNat * 256 + b.toNat⟩ =
      some ⟨tp ++ [a, b], colonp, curtok, 0, 0⟩ := by
  have hb := b.toNat_lt
  have hhigh : (a.toNat * 256 + b.toNat) / 256 = a.toNat := by omega
  have hlow : UInt8.ofNat (a.toNat * 256 + b.toNat) = b := by
    apply UInt8.toNat_inj.mp
    rw [UInt8.toNat_ofNat']
    omega
  rw [Reading.store, if_neg (by simpa using htp)]
  dsimp only
  rw [hhigh, hlow, UInt8.ofNat_toNat]

/-- Groups with their colons are stored one after the other. -/
theorem readGroups_groups {l rest : Bytes} (heven : l.length % 2 = 0) (hrest : rest ≠ [])
    {t : Bytes} (hroom : t.length + l.length ≤ 16) (curtok : Bytes) :
    ∃ curtok', readGroups (groupText l ++ rest) ⟨t, none, curtok, 0, 0⟩ =
      readGroups rest ⟨t ++ l, none, curtok', 0, 0⟩ := by
  induction l using groupText.induct generalizing t curtok with
  | case1 a b l ih =>
    rw [List.length_cons, List.length_cons] at heven hroom
    obtain ⟨curtok', ih⟩ := ih (by omega) (t := t ++ [a, b])
      (by rw [List.length_append]; simp only [List.length_cons, List.length_nil]; omega)
      (groupText l ++ rest)
    refine ⟨curtok', ?_⟩
    have hcolon : isDigit 16 58 = false := by decide
    have hne : groupText l ++ rest ≠ [] := fun h => hrest (List.append_eq_nil_iff.mp h).2
    rw [groupText, List.append_assoc, readGroups_group, List.cons_append, readGroups,
      if_neg (by rw [hcolon]; decide), if_pos rfl, if_neg (Nat.succ_ne_zero 3), if_neg hne,
      store_group a b (by omega), Option.bind_some, ih, List.append_assoc]
    rfl
  | case2 l hl =>
    rcases no_group hl with rfl | ⟨a, rfl⟩
    · refine ⟨curtok, ?_⟩
      rw [List.append_nil]
      rfl
    · cases heven

theorem inetPton6_digit {d : Nat} (hd : d < 16) (s : Bytes) :
    inetPton6 (digitByte d :: s) =
      (readGroups (digitByte d :: s) ⟨[], none, digitByte d :: s, 0, 0⟩).bind (·.finish) := by
  have hne : digitByte d ≠ 58 := by
    have hall : ∀ k : Fin 16, digitByte k ≠ 58 := by decide
    exact hall ⟨d, hd⟩
  rw [inetPton6]
  intro src h
  exact hne (List.cons.inj h).1

/-- A text that begins with a byte in two digits. -/
theorem inetPton6_pair (a : UInt8) (s : Bytes) :
    inetPton6 (hexPair a ++ s) =
      (readGroups (hexPair a ++ s) ⟨[], none, hexPair a ++ s, 0, 0⟩).bind (·.finish) := by
  have ha : a.toNat / 16 < 16 := by have := a.toNat_lt; omega
  exact inetPton6_digit ha _

theorem groupText_cons {l : Bytes} (hne : l ≠ []) (heven : l.length % 2 = 0) :
    ∃ a b t, l = a :: b :: t ∧ groupText l = hexPair a ++ (hexPair b ++ 58 :: groupText t) := by
  match l, hne, heven with
  | [a], _, h => cases h
  | a :: b :: t, _, _ => exact ⟨a, b, t, rfl, by rw [groupText, List.append_assoc]⟩

theorem groupText_append {l : Bytes} (heven : l.length % 2 = 0) (a b : UInt8) :
    groupText (l ++ [a, b]) = groupText l ++ (hexPair a ++ hexPair b ++ [58]) := by
  induction l using groupText.induct with
  | case1 c d l ih =>
    rw [List.length_cons, List.length_cons] at heven
    rw [List.cons_append, List.cons_append, groupText, ih (by omega), groupText]
    simp only [List.append_assoc, List.cons_append]
  | case2 l hl =>
    rcases no_group hl with rfl | ⟨c, rfl⟩
    · rfl
    · cases heven

/-- Groups and a colon more: the place of `::` is the end. -/
theorem inetPton6_colons {l : Bytes} (hne : l ≠ []) (heven : l.length % 2 = 0)
    (hlen : l.length ≤ 16) :
    inetPton6 (groupText l ++ [58]) = Reading.finish ⟨l, some l.length, [], 0, 0⟩ := by
  obtain ⟨a, b, t, -, htext⟩ := groupText_cons hne heven
  have hstart := inetPton6_pair a (hexPair b ++ 58 :: groupText t ++ [58])
  rw [← List.append_assoc, ← htext] at hstart
  obtain ⟨curtok, hrun⟩ := readGroups_groups heven (List.cons_ne_nil 58 []) (t := [])
    (by rw [List.length_nil]; omega) (groupText l ++ [58])
  have hcolon : isDigit 16 58 = false := by decide
  have hlast : readGroups [58] ⟨l, none, curtok, 0, 0⟩ = some ⟨l, some l.length, [], 0, 0⟩ := by
    rw [readGroups, if_neg (by rw [hcolon]; decide), if_pos rfl, if_pos rfl]
    rfl
  rw [hstart, hrun, List.nil_append, hlast, Option.bind_some]

/-- Up to seven groups and a colon more: zeros fill the address. -/
theorem inetPton6_short {l : Bytes} (hne : l ≠ []) (heven : l.length % 2 = 0)
    (hlen : l.length ≤ 14) :
    inetPton6 (groupText l ++ [58]) = some (l ++ List.replicate (16 - l.length) 0) := by
  rw [inetPton6_colons hne heven (by omega), Reading.finish, if_pos rfl, Option.bind_some]
  dsimp only
  rw [if_neg (by omega), List.take_length, List.drop_length, List.append_nil]

/-- Eight groups and a colon more are no address. -/
theorem inetPton6_long {l : Bytes} (hlen : l.length = 16) :
    inetPton6 (groupText l ++ [58]) = none := by
  have hne : l ≠ [] := List.ne_nil_of_length_pos (by omega)
  rw [inetPton6_colons hne (by omega) (by omega), Reading.finish, if_pos rfl, Option.bind_some]
  exact if_pos hlen

/-- Eight groups without the last colon are an address. -/
theorem inetPton6_whole {l : Bytes} (hlen : l.length = 16) :
    inetPton6 (groupText l).dropLast = some l := by
  obtain ⟨m, a, b, rfl⟩ : ∃ m a b, l = m ++ [a, b] := by
    refine ⟨l.take 14, l.getD 14 0, l.getD 15 0, ?_⟩
    apply List.ext_getElem
    · simp [hlen]
    · intro i h1 h2
      rw [List.getElem_append]
      split
      · rw [List.getElem_take]
      · rename_i hi
        rw [List.length_take, hlen] at hi
        have hcases : i = 14 ∨ i = 15 := by omega
        rcases hcases with rfl | rfl
        · simp [hlen]
        · simp [hlen]
  have hm : m.length = 14 := by simpa using hlen
  have heven : m.length % 2 = 0 := by omega
  have hdrop : (groupText (m ++ [a, b])).dropLast = groupText m ++ (hexPair a ++ hexPair b) := by
    rw [groupText_append heven, ← List.append_assoc, List.dropLast_concat]
  obtain ⟨c, d, t, -, htext⟩ := groupText_cons (List.ne_nil_of_length_pos (by omega)) heven
  have hstart := inetPton6_pair c (hexPair d ++ 58 :: groupText t ++ (hexPair a ++ hexPair b))
  rw [← List.append_assoc, ← htext] at hstart
  have hpair : hexPair a ++ hexPair b ≠ [] := List.cons_ne_nil _ _
  obtain ⟨curtok, hrun⟩ := readGroups_groups heven hpair (t := [])
    (by rw [List.length_nil]; omega) (groupText m ++ (hexPair a ++ hexPair b))
  have hlast := readGroups_group a b m curtok [] none
  rw [List.append_nil, readGroups] at hlast
  rw [hdrop, hstart, hrun, List.nil_append, hlast, Option.bind_some, Reading.finish,
    if_neg (Nat.succ_ne_zero 3), store_group a b (by omega), Option.bind_some]
  exact if_pos hlen

end InetText
