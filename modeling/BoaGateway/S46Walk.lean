import BoaGateway.S46Options

/-!
# Where the walk through an S46 container stays inside

Which texts `get_map_info` and `get_lw4o6_info` read without a step behind the last token or outside
an array. A text with a port parameters option is never one of them: `psid_binary` is filled from
the element of index 16 on.
-/

namespace S46Options

open ByteBlocks

/-- A call that has an end and touches nothing outside. -/
def Inside (run : Option Outcome) : Prop := ∃ out, run = some out ∧ out.outside = []

/-- The length of the text of so many tokens. -/
def groupsLength (ts : List Bytes) : Nat :=
  (ts.map fun t => (padded t).length).sum + ts.length / 2

/-- The tokens of a prefix are there, and its text fits its array. -/
def PrefixFits (prefixLen : Int) (pch : List Bytes) : Prop :=
  (bufLen prefixLen).toNat ≤ pch.length ∧
    groupsLength (pch.take (bufLen prefixLen).toNat) +
      (if (bufLen prefixLen).tmod 2 = 0 then 0 else 3) + (if prefixLen = 128 then 0 else 1) < 46

def RuleFits (pch : List Bytes) : Prop :=
  2 ≤ pch.length ∧ (pairAt 0 pch = 89 → 12 ≤ pch.length ∧ PrefixFits (tokenAt 11 pch) (pch.drop 12))

def afterRule (pch : List Bytes) : List Bytes :=
  if pairAt 0 pch = 89 then (pch.drop 12).drop (bufLen (tokenAt 11 pch)).toNat else pch.drop 2

def BindFits (pch : List Bytes) : Prop :=
  2 ≤ pch.length ∧ (pairAt 0 pch = 92 → 9 ≤ pch.length ∧ PrefixFits (tokenAt 8 pch) (pch.drop 9))

def afterBind (pch : List Bytes) : List Bytes :=
  if pairAt 0 pch = 92 then (pch.drop 9).drop (bufLen (tokenAt 8 pch)).toNat else pch.drop 2

def DmrFits (pch : List Bytes) : Prop :=
  2 ≤ pch.length ∧ (pairAt 0 pch = 91 → 5 ≤ pch.length ∧ PrefixFits (tokenAt 4 pch) (pch.drop 5))

/-- The bytes of the address are there, at least one, and their text fits. -/
def BrFits (pch : List Bytes) : Prop :=
  2 ≤ pch.length ∧ (pairAt 0 pch = 90 → 4 ≤ pch.length ∧ 0 < pairAt 2 pch ∧
    (pairAt 2 pch).toNat ≤ (pch.drop 4).length ∧
    groupsLength ((pch.drop 4).take (pairAt 2 pch).toNat) < 46)

def afterBr (pch : List Bytes) : List Bytes :=
  if pairAt 0 pch = 90 then (pch.drop 4).drop (pairAt 2 pch).toNat else pch.drop 2

/-- There is another option, or none that is known. -/
def PortFits (pch : List Bytes) : Prop := 2 ≤ pch.length ∧ pairAt 0 pch ≠ 93

def MapFits (mapType : MapType) (pch : List Bytes) : Prop :=
  pch.length < 256 ∧ RuleFits pch ∧ PortFits (afterRule pch) ∧
    match mapType with
    | .mape => BrFits ((afterRule pch).drop 2)
    | .mapt => DmrFits ((afterRule pch).drop 2)

def LwFits (pch : List Bytes) : Prop :=
  pch.length < 256 ∧ BrFits pch ∧ BindFits (afterBr pch) ∧ PortFits (afterBind (afterBr pch))

/-- What the loop appends, with the number of tokens before. -/
def groupsFrom : Nat → List Bytes → Bytes
  | _, [] => []
  | k, t :: ts => padded t ++ (if k % 2 = 1 then [58] else []) ++ groupsFrom (k + 1) ts

variable {m : Machine} {n k : Nat} {str : Bytes} {pch rest : List Bytes} {prefixLen : Int}

theorem appendGroups_eq (n k : Nat) (str : Bytes) (pch : List Bytes) :
    appendGroups n k str pch =
      if n ≤ pch.length then some (str ++ groupsFrom k (pch.take n), pch.drop n) else none := by
  induction n generalizing k str pch with
  | zero => simp [appendGroups, groupsFrom]
  | succ n ih =>
    cases pch with
    | nil => rfl
    | cons token pch =>
      rw [appendGroups, ih, List.length_cons, List.take_succ_cons, List.drop_succ_cons, groupsFrom]
      simp only [Nat.add_le_add_iff_right, List.append_assoc]

theorem groupsFrom_length (k : Nat) (ts : List Bytes) : (groupsFrom k ts).length =
    (ts.map fun t => (padded t).length).sum + (ts.length + k % 2) / 2 := by
  induction ts generalizing k with
  | nil =>
    have := Nat.mod_lt k (by decide : 0 < 2)
    simp only [groupsFrom, List.length_nil, List.map_nil, List.sum_nil]
    omega
  | cons t ts ih =>
    rw [groupsFrom, List.length_append, List.length_append, ih, List.map_cons, List.sum_cons,
      List.length_cons]
    split
    · rw [List.length_singleton]
      omega
    · rw [List.length_nil]
      omega

theorem groupsFrom_zero_length (ts : List Bytes) : (groupsFrom 0 ts).length = groupsLength ts := by
  rw [groupsFrom_length, groupsLength]
  rfl

theorem overrun_eq_nil (place : Place) (size : Nat) (str : Bytes) :
    overrun place size str = [] ↔ str.length < size := by
  rw [overrun]
  split
  · rename_i h
    exact iff_of_true rfl h
  · rename_i h
    exact iff_of_false (List.cons_ne_nil _ _) h

/-- A prefix is read without a step outside exactly if it fits. -/
theorem prefix_inside (place : Place) (prefixLen : Int) (pch : List Bytes) :
    (∃ str, prefixGroups prefixLen pch = some (str, rest) ∧
      overrun place 46 (if prefixLen = 128 then str else prefixEnd prefixLen str) = []) ↔
      PrefixFits prefixLen pch ∧ rest = pch.drop (bufLen prefixLen).toNat := by
  have hlength (str : Bytes) :
      (if prefixLen = 128 then str else prefixEnd prefixLen str).length =
        str.length + if prefixLen = 128 then 0 else 1 := by
    rw [prefixEnd]
    split
    · rfl
    · rw [List.length_append, List.length_singleton]
  simp only [overrun_eq_nil, hlength, prefixGroups, appendGroups_eq, PrefixFits]
  by_cases hroom : (bufLen prefixLen).toNat ≤ pch.length
  · rw [if_pos hroom, Option.map_some]
    have hstr : (if (bufLen prefixLen).tmod 2 = 0 then
        [] ++ groupsFrom 0 (pch.take (bufLen prefixLen).toNat) else
        [] ++ groupsFrom 0 (pch.take (bufLen prefixLen).toNat) ++ [48, 48, 58]).length =
        groupsLength (pch.take (bufLen prefixLen).toNat) +
          if (bufLen prefixLen).tmod 2 = 0 then 0 else 3 := by
      split
      · rw [List.nil_append, groupsFrom_zero_length, Nat.add_zero]
      · rw [List.nil_append, List.length_append, groupsFrom_zero_length]
        rfl
    constructor
    · rintro ⟨str, hsome, hlen⟩
      obtain ⟨rfl, rfl⟩ := Prod.mk.inj (Option.some.inj hsome)
      rw [hstr] at hlen
      exact ⟨⟨hroom, hlen⟩, rfl⟩
    · rintro ⟨⟨-, hlen⟩, rfl⟩
      refine ⟨_, rfl, ?_⟩
      rw [hstr]
      exact hlen
  · rw [if_neg hroom]
    constructor
    · rintro ⟨str, hnone, -⟩
      cases hnone
    · rintro ⟨⟨h, -⟩, -⟩
      exact absurd h hroom

variable {α : Type} {code : Int} {fixed : Nat} {other : Int → α}
  {body : List Bytes → Option (Part α)}

/-- An option is read without a step outside exactly if its code and what it stands for are. -/
theorem optionPart_inside :
    (∃ v, optionPart code fixed other body pch = some ⟨v, rest, []⟩) ↔
      2 ≤ pch.length ∧ (pairAt 0 pch = code → fixed ≤ pch.length ∧
        ∃ v, body pch = some ⟨v, rest, []⟩) ∧ (pairAt 0 pch ≠ code → rest = pch.drop 2) := by
  rw [optionPart]
  by_cases htwo : pch.length < 2
  · rw [if_pos htwo]
    constructor
    · rintro ⟨v, h⟩
      cases h
    · rintro ⟨h, -⟩
      omega
  rw [if_neg htwo]
  by_cases hcode : pairAt 0 pch = code
  · rw [if_pos hcode]
    by_cases hfixed : pch.length < fixed
    · rw [if_pos hfixed]
      constructor
      · rintro ⟨v, h⟩
        cases h
      · rintro ⟨-, h, -⟩
        have := (h hcode).1
        omega
    · rw [if_neg hfixed]
      constructor
      · exact fun h => ⟨by omega, fun _ => ⟨by omega, h⟩, fun hne => absurd hcode hne⟩
      · exact fun h => (h.2.1 hcode).2
  · rw [if_neg hcode]
    constructor
    · rintro ⟨v, h⟩
      cases h
      exact ⟨by omega, fun h => absurd h hcode, fun _ => rfl⟩
    · rintro ⟨-, -, h⟩
      exact ⟨_, by rw [h hcode]⟩

/-- A part with a prefix of variable length behind its fixed tokens. -/
theorem prefixPart_inside {place : Place} {value : Bytes → α} :
    (∃ v, prefixPart place prefixLen value pch = some ⟨v, rest, []⟩) ↔
      PrefixFits prefixLen pch ∧ rest = pch.drop (bufLen prefixLen).toNat := by
  rw [← prefix_inside place]
  constructor
  · rintro ⟨v, h⟩
    obtain ⟨res, hres, heq⟩ := Option.map_eq_some_iff.mp h
    obtain ⟨-, rfl, hout⟩ := Part.mk.inj heq
    exact ⟨res.1, hres, hout⟩
  · rintro ⟨str, hstr, hout⟩
    refine ⟨value (prefixEnd prefixLen str), ?_⟩
    rw [prefixPart, hstr, Option.map_some, hout]

/-- An option whose last part is a prefix. -/
theorem prefixOption_inside {place : Place} {size : List Bytes → Int}
    {value : List Bytes → Bytes → α} :
    (∃ v, optionPart code fixed other
      (fun pch => prefixPart place (size pch) (value pch) (pch.drop fixed)) pch =
        some ⟨v, rest, []⟩) ↔
      (2 ≤ pch.length ∧ (pairAt 0 pch = code → fixed ≤ pch.length ∧
        PrefixFits (size pch) (pch.drop fixed))) ∧
      rest = if pairAt 0 pch = code then (pch.drop fixed).drop (bufLen (size pch)).toNat
        else pch.drop 2 := by
  rw [optionPart_inside, prefixPart_inside]
  by_cases h : pairAt 0 pch = code
  · simp only [h, true_implies, ne_eq, not_true_eq_false, false_implies, and_true, and_assoc,
      if_pos]
  · simp only [h, false_implies, ne_eq, not_false_eq_true, true_implies, true_and, and_true,
      if_false]

theorem rulePart_inside :
    (∃ v, rulePart m pch = some ⟨v, rest, []⟩) ↔ RuleFits pch ∧ rest = afterRule pch :=
  prefixOption_inside

theorem bindPart_inside :
    (∃ v, bindPart m pch = some ⟨v, rest, []⟩) ↔ BindFits pch ∧ rest = afterBind pch :=
  prefixOption_inside

theorem dmrPart_inside : (∃ v, dmrPart pch = some ⟨v, rest, []⟩) ↔
    DmrFits pch ∧ rest = if pairAt 0 pch = 91 then
      (pch.drop 5).drop (bufLen (tokenAt 4 pch)).toNat else pch.drop 2 :=
  prefixOption_inside

/-- A BR option needs a byte at least: the last character is looked at. -/
theorem addressPart_inside {value : Int → Bytes → S46Br} (hpch : ∀ t ∈ pch, t ≠ []) :
    (∃ v, addressPart value pch = some ⟨v, rest, []⟩) ↔ BrFits pch ∧ rest = afterBr pch := by
  have hbody (n : Int) (ts : List Bytes) (hts : ∀ t ∈ ts, t ≠ []) :
      (∃ v, (appendGroups n.toNat 0 [] ts).map (fun res => Part.mk (value n res.1) res.2
        (overrun .brAddrStr 46 res.1 ++ lastOf res.1)) = some ⟨v, rest, []⟩) ↔
        (0 < n ∧ n.toNat ≤ ts.length ∧ groupsLength (ts.take n.toNat) < 46) ∧
          rest = ts.drop n.toNat := by
    rw [appendGroups_eq]
    by_cases hroom : n.toNat ≤ ts.length
    · rw [if_pos hroom, Option.map_some, List.nil_append]
      have hlast : lastOf (groupsFrom 0 (ts.take n.toNat)) = [] ↔ 0 < n := by
        rw [lastOf]
        by_cases hn : 0 < n
        · obtain ⟨k, rfl⟩ : ∃ k : Nat, n = k + 1 := ⟨(n - 1).toNat, by omega⟩
          cases ts with
          | nil =>
            rw [List.length_nil] at hroom
            omega
          | cons t ts =>
            have ht := hts t List.mem_cons_self
            have hpad : padded t ≠ [] := by
              rw [padded]
              split
              · exact List.cons_ne_nil _ _
              · exact ht
            have hne : groupsFrom 0 ((t :: ts).take (k + 1 : Int).toNat) ≠ [] := by
              rw [show (k + 1 : Int).toNat = k + 1 from by omega, List.take_succ_cons, groupsFrom,
                List.append_assoc]
              exact fun h => hpad (List.append_eq_nil_iff.mp h).1
            rw [if_neg hne]
            exact iff_of_true rfl hn
        · rw [show n.toNat = 0 from by omega, List.take_zero, groupsFrom, if_pos rfl]
          exact iff_of_false (List.cons_ne_nil _ _) (by omega)
      constructor
      · rintro ⟨v, h⟩
        obtain ⟨-, rfl, hout⟩ := Part.mk.inj (Option.some.inj h)
        obtain ⟨hover, hout⟩ := List.append_eq_nil_iff.mp hout
        rw [overrun_eq_nil, groupsFrom_zero_length] at hover
        exact ⟨⟨hlast.mp hout, hroom, hover⟩, rfl⟩
      · rintro ⟨⟨hn, -, hlen⟩, rfl⟩
        rw [← groupsFrom_zero_length, ← overrun_eq_nil .brAddrStr] at hlen
        exact ⟨_, by rw [hlen, hlast.mpr hn]; rfl⟩
    · rw [if_neg hroom]
      constructor
      · rintro ⟨v, h⟩
        cases h
      · rintro ⟨⟨-, h, -⟩, -⟩
        exact absurd h hroom
  have hdrop : ∀ t ∈ pch.drop 4, t ≠ [] := fun t ht => hpch t (List.mem_of_mem_drop ht)
  rw [addressPart, optionPart_inside, hbody (pairAt 2 pch) (pch.drop 4) hdrop, BrFits, afterBr]
  by_cases h : pairAt 0 pch = 90
  · simp only [h, true_implies, ne_eq, not_true_eq_false, false_implies, and_true, and_assoc,
      if_pos]
  · simp only [h, false_implies, ne_eq, not_false_eq_true, true_implies, true_and, and_true,
      if_false]

/-- A port parameters option is never read without a step outside. -/
theorem portPart_inside :
    (∃ v, portPart m pch = some ⟨v, rest, []⟩) ↔ PortFits pch ∧ rest = pch.drop 2 := by
  rw [portPart, optionPart_inside, PortFits]
  constructor
  · rintro ⟨htwo, hport, hother⟩
    have hcode : pairAt 0 pch ≠ 93 := by
      intro h
      obtain ⟨-, v, hv⟩ := hport h
      have hout := (Part.mk.inj (Option.some.inj hv)).2.2
      exact List.cons_ne_nil _ _ (List.append_eq_nil_iff.mp hout).2
    exact ⟨⟨htwo, hcode⟩, hother hcode⟩
  · rintro ⟨⟨htwo, hcode⟩, hrest⟩
    exact ⟨htwo, fun h => absurd h hcode, fun _ => hrest⟩

theorem pchOverrun_eq_nil : pchOverrun pch = [] ↔ pch.length < 256 := by
  rw [pchOverrun]
  split
  · rename_i h
    exact iff_of_true rfl h
  · rename_i h
    exact iff_of_false (List.cons_ne_nil _ _) h

/-- What is left behind a part is the end of the list. -/
theorem afterRule_tokens (hpch : ∀ t ∈ pch, t ≠ []) : ∀ t ∈ afterRule pch, t ≠ [] := by
  intro t ht
  rw [afterRule] at ht
  split at ht
  · exact hpch t (List.mem_of_mem_drop (List.mem_of_mem_drop ht))
  · exact hpch t (List.mem_of_mem_drop ht)

theorem getMapInfo_inside (m : Machine) (mapType : MapType) (s : Bytes) :
    Inside (getMapInfo m mapType s) ↔ MapFits mapType (chop (cstr s)) := by
  have hpch : ∀ t ∈ chop (cstr s), t ≠ [] := Tokens.tokens_ne_nil (cstr s)
  have hrest : ∀ t ∈ (afterRule (chop (cstr s))).drop 2, t ≠ [] :=
    fun t ht => afterRule_tokens hpch t (List.mem_of_mem_drop ht)
  constructor
  · rintro ⟨out, hrun, hout⟩
    obtain ⟨rule, hrule, hrun⟩ := Option.bind_eq_some_iff.mp hrun
    obtain ⟨port, hport, hrun⟩ := Option.bind_eq_some_iff.mp hrun
    cases mapType with
    | mape =>
      obtain ⟨br, hbr, rfl⟩ := Option.map_eq_some_iff.mp hrun
      obtain ⟨hout, hbrOut⟩ := List.append_eq_nil_iff.mp hout
      obtain ⟨hout, hportOut⟩ := List.append_eq_nil_iff.mp hout
      obtain ⟨hpchOut, hruleOut⟩ := List.append_eq_nil_iff.mp hout
      obtain ⟨rv, rrest, rout⟩ := rule
      obtain ⟨pv, prest, pout⟩ := port
      obtain ⟨bv, brest, bout⟩ := br
      dsimp only at hruleOut hportOut hbrOut hport hbr
      subst hruleOut hportOut hbrOut
      obtain ⟨hruleFits, rfl⟩ := rulePart_inside.mp ⟨rv, hrule⟩
      obtain ⟨hportFits, rfl⟩ := portPart_inside.mp ⟨pv, hport⟩
      obtain ⟨hbrFits, -⟩ := (addressPart_inside hrest).mp ⟨bv, hbr⟩
      exact ⟨pchOverrun_eq_nil.mp hpchOut, hruleFits, hportFits, hbrFits⟩
    | mapt =>
      obtain ⟨dmr, hdmr, rfl⟩ := Option.map_eq_some_iff.mp hrun
      obtain ⟨hout, hdmrOut⟩ := List.append_eq_nil_iff.mp hout
      obtain ⟨hout, hportOut⟩ := List.append_eq_nil_iff.mp hout
      obtain ⟨hpchOut, hruleOut⟩ := List.append_eq_nil_iff.mp hout
      obtain ⟨rv, rrest, rout⟩ := rule
      obtain ⟨pv, prest, pout⟩ := port
      obtain ⟨dv, drest, dout⟩ := dmr
      dsimp only at hruleOut hportOut hdmrOut hport hdmr
      subst hruleOut hportOut hdmrOut
      obtain ⟨hruleFits, rfl⟩ := rulePart_inside.mp ⟨rv, hrule⟩
      obtain ⟨hportFits, rfl⟩ := portPart_inside.mp ⟨pv, hport⟩
      obtain ⟨hdmrFits, -⟩ := dmrPart_inside.mp ⟨dv, hdmr⟩
      exact ⟨pchOverrun_eq_nil.mp hpchOut, hruleFits, hportFits, hdmrFits⟩
  · rintro ⟨hlen, hruleFits, hportFits, hlast⟩
    obtain ⟨rv, hrule⟩ := rulePart_inside.mpr ⟨hruleFits, rfl⟩
    obtain ⟨pv, hport⟩ := portPart_inside.mpr ⟨hportFits, rfl⟩
    cases mapType with
    | mape =>
      obtain ⟨bv, hbr⟩ := (addressPart_inside hrest).mpr ⟨hlast, rfl⟩
      rw [Inside, getMapInfo, hrule, Option.bind_some, hport, Option.bind_some]
      dsimp only
      rw [brPart, hbr, Option.map_some, pchOverrun_eq_nil.mpr hlen]
      exact ⟨_, rfl, rfl⟩
    | mapt =>
      obtain ⟨dv, hdmr⟩ := dmrPart_inside.mpr ⟨hlast, rfl⟩
      rw [Inside, getMapInfo, hrule, Option.bind_some, hport, Option.bind_some]
      dsimp only
      rw [hdmr, Option.map_some, pchOverrun_eq_nil.mpr hlen]
      exact ⟨_, rfl, rfl⟩

theorem getLw4o6Info_inside (m : Machine) (s : Bytes) :
    Inside (getLw4o6Info m s) ↔ LwFits (chop (cstr s)) := by
  have hpch : ∀ t ∈ chop (cstr s), t ≠ [] := Tokens.tokens_ne_nil (cstr s)
  constructor
  · rintro ⟨out, hrun, hout⟩
    obtain ⟨br, hbr, hrun⟩ := Option.bind_eq_some_iff.mp hrun
    obtain ⟨bound, hbound, hrun⟩ := Option.bind_eq_some_iff.mp hrun
    obtain ⟨port, hport, rfl⟩ := Option.map_eq_some_iff.mp hrun
    obtain ⟨hout, hportOut⟩ := List.append_eq_nil_iff.mp hout
    obtain ⟨hout, hboundOut⟩ := List.append_eq_nil_iff.mp hout
    obtain ⟨hpchOut, hbrOut⟩ := List.append_eq_nil_iff.mp hout
    obtain ⟨bv, brest, bout⟩ := br
    obtain ⟨dv, drest, dout⟩ := bound
    obtain ⟨pv, prest, pout⟩ := port
    dsimp only at hbrOut hboundOut hportOut hbound hport
    subst hbrOut hboundOut hportOut
    obtain ⟨hbrFits, rfl⟩ := (addressPart_inside hpch).mp ⟨bv, hbr⟩
    obtain ⟨hboundFits, rfl⟩ := bindPart_inside.mp ⟨dv, hbound⟩
    obtain ⟨hportFits, -⟩ := portPart_inside.mp ⟨pv, hport⟩
    exact ⟨pchOverrun_eq_nil.mp hpchOut, hbrFits, hboundFits, hportFits⟩
  · rintro ⟨hlen, hbrFits, hboundFits, hportFits⟩
    obtain ⟨bv, hbr⟩ := (addressPart_inside hpch).mpr ⟨hbrFits, rfl⟩
    obtain ⟨dv, hbound⟩ := bindPart_inside.mpr ⟨hboundFits, rfl⟩
    obtain ⟨pv, hport⟩ := portPart_inside.mpr ⟨hportFits, rfl⟩
    rw [Inside, getLw4o6Info, aftrPart, hbr, Option.bind_some, hbound, Option.bind_some, hport,
      Option.map_some, pchOverrun_eq_nil.mpr hlen]
    exact ⟨_, rfl, rfl⟩

end S46Options
