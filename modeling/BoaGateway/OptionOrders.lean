import BoaGateway.Netmask

/-!
# Closing the gaps in the order of request options

`compact_reqoption_order` of `utility.c`. Every round marks the orders that the request
options of an interface have, looks for the first one from 1 on that is missing, and lowers
all orders above it; the last round finds none missing.
-/

namespace OptionOrders

open ByteBlocks Netmask

/-- `MIB_CE_DHCP_OPTION_T`. -/
structure DhcpOption where
  enable : UInt8
  usedFor : UInt8
  order : UInt32
  tag : UInt8
  len : UInt8
  value : Block 101
  ifIndex : UInt32
  dhcpOptInstNum : UInt32
  dhcpConSPInstNum : UInt32

/-- `eUsedFor_DHCPClient_Req`. -/
def usedForDHCPClientReq : UInt8 := 4

/-- The records that no loop skips. -/
def requested (ifIndex : UInt32) (p : DhcpOption) : Bool :=
  p.usedFor == usedForDHCPClientReq && p.ifIndex == ifIndex

/-- The width of `size_t`, and the sizes for which `malloc` finds memory. -/
structure Machine where
  long : Long
  malloc : Nat → Bool

variable (M : Machine) (ifIndex : UInt32)

def findMaxDHCPReqOptionOrder (tbl : List DhcpOption) : UInt32 :=
  tbl.foldl (fun ret p => if requested ifIndex p && ret < p.order then p.order else ret) 0

/-- The loop that marks the orders; a write outside of `orderflag` has no result. -/
def setFlags : List DhcpOption → List Bool → Option (List Bool)
  | [], orderflag => some orderflag
  | p :: rest, orderflag =>
    if requested ifIndex p then
      if p.order.toNat < orderflag.length then setFlags rest (orderflag.set p.order.toNat true)
      else none
    else setFlags rest orderflag

/-- So many rounds of the loop that looks for the first missing order, from `j` on. -/
def findGap (orderflag : List Bool) : Nat → Nat → Option Nat
  | 0, j => some j
  | n + 1, j =>
    match orderflag[j]? with
    | none => none
    | some true => findGap orderflag n (j + 1)
    | some false => some j

/-- What the last loop does to one record. -/
def lower (j : Nat) (p : DhcpOption) : DhcpOption :=
  if requested ifIndex p && j < p.order.toNat then { p with order := p.order - 1 } else p

/-- A round goes on with the next one, or the function returns. -/
inductive Outcome where
  | again (tbl : List DhcpOption)
  | returned (tbl : List DhcpOption)

/-- One round; `maxorder` is an `int`, and adding 1 to the largest has no result. -/
def round (tbl : List DhcpOption) : Option Outcome :=
  let maxorder := s32 (findMaxDHCPReqOptionOrder ifIndex tbl).toNat
  if maxorder = 2 ^ 31 - 1 then none
  else
    let size := ((maxorder + 1) % 2 ^ M.long.width).toNat
    if M.malloc size then
      match setFlags ifIndex tbl (List.replicate size false) with
      | none => none
      | some orderflag =>
        match findGap orderflag maxorder.toNat 1 with
        | none => none
        | some j =>
          if (j : Int) = maxorder + 1 then some (.returned tbl)
          else some (.again (tbl.map (lower ifIndex j)))
    else some (.returned tbl)

/-- So many rounds of `compact_reqoption_order`. -/
def compactReqoptionOrder : Nat → List DhcpOption → Option Outcome
  | 0, tbl => some (.again tbl)
  | n + 1, tbl =>
    match round M ifIndex tbl with
    | none => none
    | some (.returned tbl) => some (.returned tbl)
    | some (.again tbl) => compactReqoptionOrder n tbl

/-- The orders of the request options. -/
def orders (tbl : List DhcpOption) : List Nat :=
  (tbl.filter (requested ifIndex)).map (·.order.toNat)

def maxOrder (tbl : List DhcpOption) : Nat := (findMaxDHCPReqOptionOrder ifIndex tbl).toNat

/-- Give every request option the order that `f` makes of its own. -/
def renumber (f : UInt32 → UInt32) (p : DhcpOption) : DhcpOption :=
  if requested ifIndex p then { p with order := f p.order } else p

/-- Only orders of request options differ; they are in the same relation to each other, and
the ones that are 0 are the same. -/
def Renumbered (tbl tbl' : List DhcpOption) : Prop :=
  ∃ f : UInt32 → UInt32, tbl' = tbl.map (renumber ifIndex f) ∧ f 0 = 0 ∧
    (∀ p ∈ tbl, requested ifIndex p = true → 0 < p.order → 0 < f p.order) ∧
    ∀ p ∈ tbl, ∀ q ∈ tbl, requested ifIndex p = true → requested ifIndex q = true →
      p.order < q.order → f p.order < f q.order

/-- The orders other than 0 are those from 1 up to some `k`. -/
def Compact (tbl : List DhcpOption) : Prop :=
  ∃ k, ∀ o, 0 < o → (o ∈ orders ifIndex tbl ↔ o ≤ k)

variable {M ifIndex} {tbl tbl' tbl'' : List DhcpOption} {p : DhcpOption}

theorem mem_orders {o : Nat} :
    o ∈ orders ifIndex tbl ↔ ∃ p ∈ tbl, requested ifIndex p = true ∧ p.order.toNat = o := by
  simp [orders, and_assoc]

theorem requested_renumber (f : UInt32 → UInt32) (p : DhcpOption) :
    requested ifIndex (renumber ifIndex f p) = requested ifIndex p := by
  rw [renumber]
  split <;> rfl

theorem renumber_order {f : UInt32 → UInt32} (hp : requested ifIndex p = true) :
    (renumber ifIndex f p).order = f p.order := by
  rw [renumber, if_pos hp]

theorem Renumbered.refl (tbl : List DhcpOption) : Renumbered ifIndex tbl tbl := by
  refine ⟨id, ?_, rfl, fun _ _ _ h => h, fun _ _ _ _ _ _ h => h⟩
  refine ((List.map_congr_left fun p _ => ?_).trans (List.map_id tbl)).symm
  rw [renumber]
  split <;> rfl

theorem Renumbered.trans (h : Renumbered ifIndex tbl tbl') (h' : Renumbered ifIndex tbl' tbl'') :
    Renumbered ifIndex tbl tbl'' := by
  obtain ⟨f, rfl, hzero, hpos, hlt⟩ := h
  obtain ⟨g, rfl, hzero', hpos', hlt'⟩ := h'
  have hmem {p : DhcpOption} (hp : p ∈ tbl) :
      renumber ifIndex f p ∈ tbl.map (renumber ifIndex f) := List.mem_map_of_mem hp
  have hreq {p : DhcpOption} (hr : requested ifIndex p = true) :
      requested ifIndex (renumber ifIndex f p) = true := (requested_renumber f p).trans hr
  refine ⟨g ∘ f, ?_, ?_, ?_, ?_⟩
  · rw [List.map_map]
    refine List.map_congr_left fun p _ => ?_
    rw [Function.comp_apply, renumber, requested_renumber, renumber, renumber]
    split <;> rfl
  · rw [Function.comp_apply, hzero, hzero']
  · intro p hp hr h0
    have h := hpos' _ (hmem hp) (hreq hr)
    rw [renumber_order hr] at h
    exact h (hpos p hp hr h0)
  · intro p hp q hq hrp hrq hpq
    have h := hlt' _ (hmem hp) _ (hmem hq) (hreq hrp) (hreq hrq)
    rw [renumber_order hrp, renumber_order hrq] at h
    exact h (hlt p hp q hq hrp hrq hpq)

theorem maxFold_le_iff (tbl : List DhcpOption) (ret : UInt32) (b : Nat) :
    (tbl.foldl (fun ret p => if requested ifIndex p && ret < p.order then p.order else ret)
        ret).toNat ≤ b ↔ ret.toNat ≤ b ∧ ∀ o ∈ orders ifIndex tbl, o ≤ b := by
  induction tbl generalizing ret with
  | nil => simp [orders]
  | cons p tbl ih =>
    rw [List.foldl_cons, ih]
    by_cases hr : requested ifIndex p = true
    · have horders : orders ifIndex (p :: tbl) = p.order.toNat :: orders ifIndex tbl := by
        simp [orders, hr]
      rw [horders, List.forall_mem_cons]
      by_cases hlt : ret < p.order
      · have hlt' := UInt32.lt_iff_toNat_lt.mp hlt
        rw [if_pos (by simp [hr, hlt])]
        constructor
        · rintro ⟨hp, hrest⟩
          exact ⟨by omega, hp, hrest⟩
        · rintro ⟨-, hp, hrest⟩
          exact ⟨hp, hrest⟩
      · have hge : p.order.toNat ≤ ret.toNat := by
          rw [UInt32.lt_iff_toNat_lt] at hlt
          omega
        rw [if_neg (by simp [hr, hlt])]
        constructor
        · rintro ⟨hret, hrest⟩
          exact ⟨hret, by omega, hrest⟩
        · rintro ⟨hret, -, hrest⟩
          exact ⟨hret, hrest⟩
    · have horders : orders ifIndex (p :: tbl) = orders ifIndex tbl := by
        simp [orders, hr]
      rw [if_neg (by simp [hr]), horders]

theorem maxOrder_le_iff {b : Nat} :
    maxOrder ifIndex tbl ≤ b ↔ ∀ o ∈ orders ifIndex tbl, o ≤ b := by
  rw [maxOrder, findMaxDHCPReqOptionOrder, maxFold_le_iff]
  exact and_iff_right (Nat.zero_le b)

theorem le_maxOrder {o : Nat} (h : o ∈ orders ifIndex tbl) : o ≤ maxOrder ifIndex tbl :=
  maxOrder_le_iff.mp (Nat.le_refl _) o h

/-- The largest order is one of them, or there are none but 0. -/
theorem maxOrder_mem (h : 0 < maxOrder ifIndex tbl) :
    maxOrder ifIndex tbl ∈ orders ifIndex tbl := by
  by_contra hnot
  have hle : maxOrder ifIndex tbl ≤ maxOrder ifIndex tbl - 1 := by
    refine maxOrder_le_iff.mpr fun o ho => ?_
    have hne : o ≠ maxOrder ifIndex tbl := fun heq => hnot (heq ▸ ho)
    have := le_maxOrder ho
    omega
  omega

/-- Where the array is long enough, every order is marked, and nothing else. -/
theorem setFlags_eq {orderflag : List Bool}
    (hlen : ∀ o ∈ orders ifIndex tbl, o < orderflag.length) :
    ∃ orderflag', setFlags ifIndex tbl orderflag = some orderflag' ∧
      orderflag'.length = orderflag.length ∧
      ∀ i, orderflag'[i]? = some true ↔
        i < orderflag.length ∧ (orderflag[i]? = some true ∨ i ∈ orders ifIndex tbl) := by
  induction tbl generalizing orderflag with
  | nil =>
    refine ⟨orderflag, rfl, rfl, fun i => ?_⟩
    simp only [orders, List.filter_nil, List.map_nil, List.not_mem_nil, or_false]
    exact ⟨fun h => ⟨(List.getElem?_eq_some_iff.mp h).1, h⟩, fun h => h.2⟩
  | cons p tbl ih =>
    rw [setFlags]
    by_cases hr : requested ifIndex p = true
    · have horders : orders ifIndex (p :: tbl) = p.order.toNat :: orders ifIndex tbl := by
        simp [orders, hr]
      rw [horders, List.forall_mem_cons] at hlen
      have hrest : ∀ o ∈ orders ifIndex tbl, o < (orderflag.set p.order.toNat true).length := by
        simpa using hlen.2
      obtain ⟨orderflag', heq, hlen', hmark⟩ := ih hrest
      rw [if_pos hr, if_pos hlen.1]
      refine ⟨orderflag', heq, by simpa using hlen', fun i => ?_⟩
      rw [hmark, horders, List.length_set, List.mem_cons, List.getElem?_set]
      by_cases hi : p.order.toNat = i
      · subst hi
        simp [hlen.1]
      · simp [hi, Ne.symm hi]
    · have horders : orders ifIndex (p :: tbl) = orders ifIndex tbl := by
        simp [orders, hr]
      rw [if_neg hr, horders]
      exact ih (by rwa [horders] at hlen)

/-- The first order that is not marked, or the one behind the last. -/
theorem findGap_eq {orderflag : List Bool} (n : Nat) {j : Nat}
    (hlen : j + n ≤ orderflag.length) :
    ∃ g, findGap orderflag n j = some g ∧ j ≤ g ∧ g ≤ j + n ∧
      (∀ i, j ≤ i → i < g → orderflag[i]? = some true) ∧
      (g < j + n → orderflag[g]? ≠ some true) := by
  induction n generalizing j with
  | zero =>
    refine ⟨j, rfl, Nat.le_refl j, Nat.le_refl j, ?_, ?_⟩
    · intro i hi hlt
      omega
    · intro h
      omega
  | succ n ih =>
    have hin : j < orderflag.length := by omega
    have hget : orderflag[j]? = some orderflag[j] := List.getElem?_eq_getElem hin
    rw [findGap]
    cases hflag : orderflag[j] with
    | true =>
      rw [hflag] at hget
      obtain ⟨g, heq, hle, hle', hmarked, hgap⟩ := ih (j := j + 1) (by omega)
      refine ⟨g, by simp only [hget, heq], by omega, by omega, ?_, ?_⟩
      · intro i hi hlt
        rcases Nat.lt_or_eq_of_le hi with hi | rfl
        · exact hmarked i hi hlt
        · exact hget
      · intro h
        exact hgap (by omega)
    | false =>
      rw [hflag] at hget
      refine ⟨j, by simp only [hget], Nat.le_refl j, by omega, ?_, ?_⟩
      · intro i hi hlt
        omega
      · intro _
        simp [hget]

theorem size_eq {m : Nat} (h : m + 1 < 2 ^ 31) :
    (((m : Int) + 1) % 2 ^ M.long.width).toNat = m + 1 := by
  have hpow : (2 : Int) ^ 32 ≤ 2 ^ M.long.width := by
    cases M.long <;> decide
  rw [Int.emod_eq_of_lt (by omega) (by omega)]
  omega

/-- What a round can do: return for lack of memory, return since no order is missing, or close
the first gap. -/
theorem round_cases (hmax : maxOrder ifIndex tbl + 1 < 2 ^ 31) :
    (round M ifIndex tbl = some (.returned tbl) ∧ M.malloc (maxOrder ifIndex tbl + 1) = false) ∨
    (round M ifIndex tbl = some (.returned tbl) ∧
      ∀ o, 0 < o → o ≤ maxOrder ifIndex tbl → o ∈ orders ifIndex tbl) ∨
    ∃ j, 0 < j ∧ j < maxOrder ifIndex tbl ∧ j ∉ orders ifIndex tbl ∧
      round M ifIndex tbl = some (.again (tbl.map (lower ifIndex j))) := by
  set m := maxOrder ifIndex tbl with hm
  have hint : s32 (findMaxDHCPReqOptionOrder ifIndex tbl).toNat = m :=
    s32_eq (show m < 2 ^ 31 by omega)
  have hround : round M ifIndex tbl =
      if M.malloc (m + 1) then
        match setFlags ifIndex tbl (List.replicate (m + 1) false) with
        | none => none
        | some orderflag =>
          match findGap orderflag m 1 with
          | none => none
          | some j =>
            if (j : Int) = m + 1 then some (.returned tbl)
            else some (.again (tbl.map (lower ifIndex j)))
      else some (.returned tbl) := by
    rw [round]
    simp only [hint, size_eq hmax, Int.toNat_natCast]
    rw [if_neg (by omega)]
  rw [hround]
  by_cases hmem : M.malloc (m + 1) = true
  · rw [if_pos hmem]
    have hlen : ∀ o ∈ orders ifIndex tbl, o < (List.replicate (m + 1) false).length := by
      intro o ho
      have := le_maxOrder ho
      rw [List.length_replicate]
      omega
    obtain ⟨orderflag, hset, hlen', hmark⟩ := setFlags_eq hlen
    rw [List.length_replicate] at hlen' hmark
    obtain ⟨g, hgap, hle, hle', hmarked, hfree⟩ :=
      findGap_eq m (show 1 + m ≤ orderflag.length by omega)
    have hmem_iff {o : Nat} (ho : o ≤ m) :
        orderflag[o]? = some true ↔ o ∈ orders ifIndex tbl := by
      rw [hmark o, List.getElem?_replicate, if_pos (by omega)]
      constructor
      · rintro ⟨-, hfalse | ho⟩
        · cases hfalse
        · exact ho
      · intro ho'
        exact ⟨by omega, Or.inr ho'⟩
    simp only [hset, hgap]
    rcases Nat.lt_or_ge g (1 + m) with hlt | hge
    · have hnot : g ∉ orders ifIndex tbl := fun h => hfree hlt ((hmem_iff (by omega)).mpr h)
      have hne : g ≠ m := by
        rintro rfl
        exact hnot (maxOrder_mem (by omega))
      exact Or.inr (Or.inr ⟨g, hle, by omega, hnot, by rw [if_neg (by omega)]⟩)
    · refine Or.inr (Or.inl ⟨by rw [if_pos (by omega)], fun o hpos ho => ?_⟩)
      exact (hmem_iff ho).mp (hmarked o hpos (by omega))
  · exact Or.inl ⟨by rw [if_neg hmem], by simpa using hmem⟩

theorem lower_eq (j : Nat) :
    lower ifIndex j = renumber ifIndex fun o => if j < o.toNat then o - 1 else o := by
  funext p
  rw [lower, renumber]
  by_cases hr : requested ifIndex p = true
  · by_cases hj : j < p.order.toNat
    · simp [hr, hj]
    · simp [hr, hj]
  · simp [hr]

theorem sub_one_toNat {o : UInt32} (h : 0 < o.toNat) : (o - 1).toNat = o.toNat - 1 := by
  have hle : (1 : UInt32) ≤ o := UInt32.le_iff_toNat_le.mpr h
  rw [UInt32.toNat_sub_of_le _ _ hle]
  rfl

/-- Closing a gap keeps the orders apart: none of them is the gap itself. -/
theorem lower_renumbered {j : Nat} (hpos : 0 < j) (hgap : j ∉ orders ifIndex tbl) :
    Renumbered ifIndex tbl (tbl.map (lower ifIndex j)) := by
  refine ⟨_, by rw [lower_eq], ?_, ?_, ?_⟩
  · exact if_neg (Nat.not_lt_zero j)
  · intro p _ _ h0
    split
    · rename_i hj
      rw [UInt32.lt_iff_toNat_lt, sub_one_toNat (by omega)]
      exact Nat.sub_pos_of_lt (by omega)
    · exact h0
  · intro p hp q hq hrp hrq hpq
    have hne : p.order.toNat ≠ j := fun h => hgap (mem_orders.mpr ⟨p, hp, hrp, h⟩)
    rw [UInt32.lt_iff_toNat_lt] at hpq ⊢
    split
    · rename_i hj
      rw [sub_one_toNat (by omega), if_pos (by omega), sub_one_toNat (by omega)]
      omega
    · rename_i hj
      split
      · rw [sub_one_toNat (by omega)]
        omega
      · exact hpq

theorem maxOrder_lower {j : Nat} (hj : j < maxOrder ifIndex tbl) :
    maxOrder ifIndex (tbl.map (lower ifIndex j)) < maxOrder ifIndex tbl := by
  have hle : maxOrder ifIndex (tbl.map (lower ifIndex j)) ≤ maxOrder ifIndex tbl - 1 := by
    refine maxOrder_le_iff.mpr fun o ho => ?_
    obtain ⟨q, hq, hr, rfl⟩ := mem_orders.mp ho
    obtain ⟨p, hp, rfl⟩ := List.mem_map.mp hq
    rw [lower_eq, requested_renumber] at hr
    rw [lower_eq, renumber_order hr]
    have hmax := le_maxOrder (mem_orders.mpr ⟨p, hp, hr, rfl⟩)
    split
    · rw [sub_one_toNat (by omega)]
      omega
    · omega
  omega

/-- More rounds than the largest order are enough. -/
theorem compact_run {n : Nat} (hn : maxOrder ifIndex tbl < n)
    (hmax : maxOrder ifIndex tbl + 1 < 2 ^ 31) :
    ∃ tbl', compactReqoptionOrder M ifIndex n tbl = some (.returned tbl') ∧
      Renumbered ifIndex tbl tbl' ∧
      ((∀ size ≤ maxOrder ifIndex tbl + 1, M.malloc size = true) → Compact ifIndex tbl') := by
  induction n generalizing tbl with
  | zero => omega
  | succ n ih =>
    rw [compactReqoptionOrder]
    rcases round_cases (M := M) hmax with ⟨heq, hnull⟩ | ⟨heq, hfull⟩ | ⟨j, hpos, hlt, hgap, heq⟩
    · refine ⟨tbl, by rw [heq], Renumbered.refl tbl, fun hmem => ?_⟩
      rw [hmem _ (Nat.le_refl _)] at hnull
      cases hnull
    · refine ⟨tbl, by rw [heq], Renumbered.refl tbl, fun _ => ?_⟩
      exact ⟨maxOrder ifIndex tbl, fun o ho => ⟨le_maxOrder, hfull o ho⟩⟩
    · have hdown := maxOrder_lower hlt
      obtain ⟨tbl', hrun, hren, hcompact⟩ := @ih (tbl.map (lower ifIndex j))
        (by omega) (by omega)
      refine ⟨tbl', by rw [heq]; exact hrun, (lower_renumbered hpos hgap).trans hren, fun hmem => ?_⟩
      exact hcompact fun size hsize => hmem size (by omega)

/-- The loop ends with every write inside the array. It keeps the options in their order, and
with memory for the arrays the orders other than 0 end up without gaps. -/
theorem orders_compacted (M : Machine) (ifIndex : UInt32) (tbl : List DhcpOption)
    (hmax : maxOrder ifIndex tbl + 1 < 2 ^ 31) :
    ∃ n tbl', compactReqoptionOrder M ifIndex n tbl = some (.returned tbl') ∧
      Renumbered ifIndex tbl tbl' ∧
      ((∀ size ≤ maxOrder ifIndex tbl + 1, M.malloc size = true) → Compact ifIndex tbl') :=
  ⟨maxOrder ifIndex tbl + 1, compact_run (Nat.lt_succ_self _) hmax⟩

def sampleMachine : Machine where
  long := .bits32
  malloc := fun size => size < 2 ^ 20

/-- A request option of interface 7. -/
def requestOption (order : UInt32) : DhcpOption where
  enable := 1
  usedFor := usedForDHCPClientReq
  order := order
  tag := 43
  len := 0
  value := Block.zeros 101
  ifIndex := 7
  dhcpOptInstNum := 1
  dhcpConSPInstNum := 0

/-- Orders 2, 5, 5 and 0. -/
theorem two_gaps_closed :
    ∃ n tbl', compactReqoptionOrder sampleMachine 7 n
        [requestOption 2, requestOption 5, requestOption 5, requestOption 0] =
          some (.returned tbl') ∧
      Renumbered 7 [requestOption 2, requestOption 5, requestOption 5, requestOption 0] tbl' ∧
      Compact 7 tbl' := by
  obtain ⟨n, tbl', hrun, hren, hcompact⟩ := orders_compacted sampleMachine 7
    [requestOption 2, requestOption 5, requestOption 5, requestOption 0] (by decide)
  refine ⟨n, tbl', hrun, hren, hcompact fun size hsize => decide_eq_true ?_⟩
  have hmax : maxOrder 7
      [requestOption 2, requestOption 5, requestOption 5, requestOption 0] = 5 := by decide
  omega

/-- The orders are those from 1 up to some `k`. -/
def Gapless (ifIndex : UInt32) (tbl : List DhcpOption) : Prop :=
  ∃ k, ∀ o, o ∈ orders ifIndex tbl ↔ 0 < o ∧ o ≤ k

/-- Orders 0 and 2 become 0 and 1. -/
theorem zero_order_stays :
    ∃ tbl', compactReqoptionOrder sampleMachine 7 2 [requestOption 0, requestOption 2] =
        some (.returned tbl') ∧ ¬Gapless 7 tbl' := by
  refine ⟨[requestOption 0, requestOption 1], by rfl, ?_⟩
  rintro ⟨k, hk⟩
  have hzero : 0 ∈ orders 7 [requestOption 0, requestOption 1] := by decide
  exact Nat.lt_irrefl 0 ((hk 0).mp hzero).1

end OptionOrders
