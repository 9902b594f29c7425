import BoaGateway.ByteBlocks

/-!
# Records of leases

How `rtk_get_dhcpv6_lease_info` of `subr_dhcpv6.c` puts the records of a lease file into its array:
into the first entry with the same address or the same client, or behind the others while there is
room. What the array should say is compared with the records, the last one of each address.
-/

namespace LeaseMerge

open ByteBlocks

/-- `struct ipv6_lease`, with its texts. -/
structure Lease where
  iaaddr : Bytes
  duid : Bytes
  active : Nat
  epoch : Int
  deriving DecidableEq

/-- The loop over the entries, and a new entry behind them. -/
def mergeLease (new : Lease) : List Lease → List Lease
  | [] => [new]
  | e :: es =>
    if e.iaaddr = new.iaaddr ∨ e.duid = new.duid then
      (if new.active ≠ 0 then new else { e with active := 0 }) :: es
    else e :: mergeLease new es

/-- One more record, if the loop over the file has not ended. -/
def addRecord (max : Nat) (leases : List Lease) (r : Lease) : List Lease :=
  if leases.length < max then mergeLease r leases else leases

def addRecords (max : Nat) (records : List Lease) : List Lease := records.foldl (addRecord max) []

/-- The last record of an address. -/
def lastRecord (records : List Lease) (iaaddr : Bytes) : Option Lease :=
  records.reverse.find? fun r => decide (r.iaaddr = iaaddr)

/-- An entry has the state of a record: it is inactive, or all that the record says. -/
def HasState (e r : Lease) : Prop := (r.active = 0 → e.active = 0) ∧ (r.active ≠ 0 → e = r)

/-- What is wanted of the array after some records. As every listed address has the state of its
own last record, a record of another address does not deactivate it. -/
structure Right (max : Nat) (records out : List Lease) : Prop where
  addresses : out.Pairwise fun a b => a.iaaddr ≠ b.iaaddr
  clients : out.Pairwise fun a b => a.active ≠ 0 → b.active ≠ 0 → a.duid ≠ b.duid
  states : ∀ e ∈ out, ∃ r, lastRecord records e.iaaddr = some r ∧ HasState e r
  room : out.length ≤ max

/-- The entry that a record goes to. -/
def Matches (r e : Lease) : Prop := e.iaaddr = r.iaaddr ∨ e.duid = r.duid

/-- An active record: behind the entry that it goes to, no other has its address, and no other
active one its client. -/
def ActiveFits (r : Lease) (behind : List Lease) : Prop :=
  ∀ x ∈ behind, x.iaaddr ≠ r.iaaddr ∧ (x.active ≠ 0 → x.duid ≠ r.duid)

/-- Another record: the entry that it goes to has its address or is inactive already, and behind
it none with its address is active. -/
def InactiveFits (r e : Lease) (behind : List Lease) : Prop :=
  (e.iaaddr = r.iaaddr ∨ e.active = 0) ∧ ∀ x ∈ behind, x.iaaddr = r.iaaddr → x.active = 0

/-- The record and the entries before it go together. -/
def Fits (max : Nat) (leases : List Lease) (r : Lease) : Prop :=
  if leases.length < max then
    ∀ front e behind, leases = front ++ e :: behind → (∀ x ∈ front, ¬Matches r x) → Matches r e →
      if r.active ≠ 0 then ActiveFits r behind else InactiveFits r e behind
  else ∀ e ∈ leases, e.iaaddr = r.iaaddr → HasState e r

instance (r e : Lease) : Decidable (Matches r e) := inferInstanceAs (Decidable (_ ∨ _))

variable {max : Nat} {records out front behind : List Lease} {r e : Lease}

theorem lastRecord_append (iaaddr : Bytes) :
    lastRecord (records ++ [r]) iaaddr =
      if r.iaaddr = iaaddr then some r else lastRecord records iaaddr := by
  rw [lastRecord, List.reverse_append, List.reverse_singleton, List.singleton_append,
    List.find?_cons]
  by_cases h : r.iaaddr = iaaddr
  · simp [h]
  · simp [h, lastRecord]

theorem mergeLease_new (h : ∀ x ∈ out, ¬Matches r x) : mergeLease r out = out ++ [r] := by
  induction out with
  | nil => rfl
  | cons e out ih =>
    obtain ⟨he, hout⟩ := List.forall_mem_cons.mp h
    have he' : ¬(e.iaaddr = r.iaaddr ∨ e.duid = r.duid) := he
    rw [mergeLease, if_neg he', ih hout, List.cons_append]

theorem mergeLease_first (hfront : ∀ x ∈ front, ¬Matches r x) (he : Matches r e) :
    mergeLease r (front ++ e :: behind) =
      front ++ (if r.active ≠ 0 then r else { e with active := 0 }) :: behind := by
  induction front with
  | nil =>
    have he' : e.iaaddr = r.iaaddr ∨ e.duid = r.duid := he
    rw [List.nil_append, mergeLease, if_pos he', List.nil_append]
  | cons x front ih =>
    obtain ⟨hx, hfront⟩ := List.forall_mem_cons.mp hfront
    have hx' : ¬(x.iaaddr = r.iaaddr ∨ x.duid = r.duid) := hx
    rw [List.cons_append, mergeLease, if_neg hx', ih hfront, List.cons_append]

/-- There is a first entry that the record goes to, or none. -/
theorem matches_cases (r : Lease) (out : List Lease) :
    (∀ x ∈ out, ¬Matches r x) ∨ ∃ front e behind, out = front ++ e :: behind ∧
      (∀ x ∈ front, ¬Matches r x) ∧ Matches r e := by
  induction out with
  | nil => exact .inl nofun
  | cons x out ih =>
    by_cases hx : Matches r x
    · exact .inr ⟨[], x, out, rfl, nofun, hx⟩
    · rcases ih with hnone | ⟨front, e, behind, rfl, hfront, he⟩
      · exact .inl (List.forall_mem_cons.mpr ⟨hx, hnone⟩)
      · exact .inr ⟨x :: front, e, behind, rfl, List.forall_mem_cons.mpr ⟨hx, hfront⟩, he⟩

/-- The first entry is one. -/
theorem first_unique {front' behind' : List Lease} {e' : Lease}
    (heq : front ++ e :: behind = front' ++ e' :: behind') (hfront : ∀ x ∈ front, ¬Matches r x)
    (he : Matches r e) (hfront' : ∀ x ∈ front', ¬Matches r x) (he' : Matches r e') :
    front = front' ∧ e = e' ∧ behind = behind' := by
  induction front generalizing front' with
  | nil =>
    cases front' with
    | nil =>
      obtain ⟨rfl, rfl⟩ := List.cons.inj heq
      exact ⟨rfl, rfl, rfl⟩
    | cons x front' =>
      obtain ⟨rfl, -⟩ := List.cons.inj heq
      exact absurd he (hfront' e List.mem_cons_self)
  | cons x front ih =>
    cases front' with
    | nil =>
      obtain ⟨rfl, -⟩ := List.cons.inj heq
      exact absurd he' (hfront x List.mem_cons_self)
    | cons y front' =>
      obtain ⟨rfl, hrest⟩ := List.cons.inj heq
      obtain ⟨rfl, rfl, rfl⟩ := ih hrest (List.forall_mem_cons.mp hfront).2
        (List.forall_mem_cons.mp hfront').2
      exact ⟨rfl, rfl, rfl⟩

theorem fits_first (hroom : (front ++ e :: behind).length < max)
    (hfront : ∀ x ∈ front, ¬Matches r x) (he : Matches r e) :
    Fits max (front ++ e :: behind) r ↔
      if r.active ≠ 0 then ActiveFits r behind else InactiveFits r e behind := by
  rw [Fits, if_pos hroom]
  constructor
  · intro h
    exact h front e behind rfl hfront he
  · intro h front' e' behind' heq hfront' he'
    obtain ⟨rfl, rfl, rfl⟩ := first_unique heq hfront he hfront' he'
    exact h

theorem addresses_middle :
    ((front ++ e :: behind).Pairwise fun a b : Lease => a.iaaddr ≠ b.iaaddr) ↔
      (∀ x ∈ front ++ behind, e.iaaddr ≠ x.iaaddr) ∧
        (front ++ behind).Pairwise fun a b => a.iaaddr ≠ b.iaaddr := by
  rw [List.pairwise_middle fun h => Ne.symm h, List.pairwise_cons]

theorem clients_middle :
    ((front ++ e :: behind).Pairwise
        fun a b : Lease => a.active ≠ 0 → b.active ≠ 0 → a.duid ≠ b.duid) ↔
      (∀ x ∈ front ++ behind, e.active ≠ 0 → x.active ≠ 0 → e.duid ≠ x.duid) ∧
        (front ++ behind).Pairwise fun a b => a.active ≠ 0 → b.active ≠ 0 → a.duid ≠ b.duid := by
  rw [List.pairwise_middle fun h hb ha => Ne.symm (h ha hb), List.pairwise_cons]

theorem hasState_self (r : Lease) : HasState r r := ⟨id, fun _ => rfl⟩

theorem last_self : lastRecord (records ++ [r]) r.iaaddr = some r := by
  rw [lastRecord_append, if_pos rfl]

theorem last_other {iaaddr : Bytes} (h : r.iaaddr ≠ iaaddr) :
    lastRecord (records ++ [r]) iaaddr = lastRecord records iaaddr := by
  rw [lastRecord_append, if_neg h]

/-- The state of an entry with another address is still that of its last record. -/
theorem Right.state_other (h : Right max records out) {x : Lease} (hx : x ∈ out)
    (hne : r.iaaddr ≠ x.iaaddr) :
    ∃ r', lastRecord (records ++ [r]) x.iaaddr = some r' ∧ HasState x r' := by
  rw [last_other hne]
  exact h.states x hx

theorem Right.add (h : Right max records out) (hnone : ∀ x ∈ out, ¬Matches r x)
    (hroom : out.length < max) : Right max (records ++ [r]) (out ++ [r]) := by
  have hne : ∀ x ∈ out, x.iaaddr ≠ r.iaaddr ∧ x.duid ≠ r.duid := fun x hx => not_or.mp (hnone x hx)
  refine ⟨?_, ?_, fun x hx => ?_, ?_⟩
  · refine List.pairwise_append.mpr ⟨h.addresses, List.pairwise_singleton .., fun x hx y hy => ?_⟩
    obtain rfl := List.mem_singleton.mp hy
    exact (hne x hx).1
  · refine List.pairwise_append.mpr ⟨h.clients, List.pairwise_singleton .., fun x hx y hy => ?_⟩
    obtain rfl := List.mem_singleton.mp hy
    exact fun _ _ => (hne x hx).2
  · rcases List.mem_append.mp hx with hx | hx
    · exact h.state_other hx (hne x hx).1.symm
    · obtain rfl := List.mem_singleton.mp hx
      exact ⟨x, last_self, hasState_self x⟩
  · rw [List.length_append]
    exact hroom

theorem right_active_iff (h : Right max records (front ++ e :: behind))
    (hfront : ∀ x ∈ front, ¬Matches r x) (hactive : r.active ≠ 0) :
    Right max (records ++ [r]) (front ++ r :: behind) ↔ ActiveFits r behind := by
  have hne : ∀ x ∈ front, r.iaaddr ≠ x.iaaddr ∧ r.duid ≠ x.duid := by
    intro x hx
    obtain ⟨haddr, hduid⟩ := not_or.mp (hfront x hx)
    exact ⟨Ne.symm haddr, Ne.symm hduid⟩
  constructor
  · intro h' x hx
    have hmem : x ∈ front ++ behind := List.mem_append_right _ hx
    have haddr := (addresses_middle.mp h'.addresses).1 x hmem
    have hduid := (clients_middle.mp h'.clients).1 x hmem hactive
    exact ⟨Ne.symm haddr, fun hx => Ne.symm (hduid hx)⟩
  · intro hfits
    refine ⟨addresses_middle.mpr ⟨fun x hx => ?_, (addresses_middle.mp h.addresses).2⟩,
      clients_middle.mpr ⟨fun x hx _ hxa => ?_, (clients_middle.mp h.clients).2⟩,
      fun x hx => ?_, ?_⟩
    · rcases List.mem_append.mp hx with hx | hx
      · exact (hne x hx).1
      · exact Ne.symm (hfits x hx).1
    · rcases List.mem_append.mp hx with hx | hx
      · exact (hne x hx).2
      · exact Ne.symm ((hfits x hx).2 hxa)
    · rcases List.mem_append.mp hx with hx | hx
      · exact h.state_other (List.mem_append_left _ hx) (hne x hx).1
      · rcases List.mem_cons.mp hx with rfl | hx
        · exact ⟨x, last_self, hasState_self x⟩
        · exact h.state_other (List.mem_append_right _ (List.mem_cons_of_mem _ hx))
            (Ne.symm (hfits x hx).1)
    · have hroom := h.room
      simp only [List.length_append, List.length_cons] at hroom ⊢
      exact hroom

theorem right_inactive_iff (h : Right max records (front ++ e :: behind))
    (hfront : ∀ x ∈ front, ¬Matches r x) (hinactive : r.active = 0) :
    Right max (records ++ [r]) (front ++ { e with active := 0 } :: behind) ↔
      InactiveFits r e behind := by
  constructor
  · intro h'
    refine ⟨?_, fun x hx hxr => ?_⟩
    · by_cases haddr : e.iaaddr = r.iaaddr
      · exact .inl haddr
      · right
        -- the last record of the entry's address is still the one that it had
        obtain ⟨r₀, hr₀, hstate⟩ := h.states e (by simp)
        obtain ⟨r₁, hr₁, hstate'⟩ := h'.states { e with active := 0 } (by simp)
        dsimp only at hr₁
        rw [last_other (Ne.symm haddr), hr₀] at hr₁
        obtain rfl := Option.some.inj hr₁
        by_cases hzero : r₀.active = 0
        · exact hstate.1 hzero
        · exact absurd (congrArg Lease.active (hstate'.2 hzero)).symm hzero
    · obtain ⟨r₁, hr₁, hstate⟩ := h'.states x (by simp [hx])
      rw [hxr, last_self] at hr₁
      obtain rfl := Option.some.inj hr₁
      exact hstate.1 hinactive
  · rintro ⟨hentry, hbehind⟩
    refine ⟨addresses_middle.mpr ⟨fun x hx => (addresses_middle.mp h.addresses).1 x hx,
        (addresses_middle.mp h.addresses).2⟩,
      clients_middle.mpr ⟨fun x hx hactive => absurd rfl hactive, (clients_middle.mp h.clients).2⟩,
      fun x hx => ?_, ?_⟩
    · have hother {x : Lease} (hx : x ∈ front ++ e :: behind)
          (hstate : HasState x r ∨ r.iaaddr ≠ x.iaaddr) :
          ∃ r', lastRecord (records ++ [r]) x.iaaddr = some r' ∧ HasState x r' := by
        by_cases haddr : r.iaaddr = x.iaaddr
        · rw [← haddr]
          exact ⟨r, last_self, hstate.resolve_right (not_not.mpr haddr)⟩
        · exact h.state_other hx haddr
      rcases List.mem_append.mp hx with hx | hx
      · refine hother (List.mem_append_left _ hx) (.inr fun heq => ?_)
        exact hfront x hx (.inl heq.symm)
      · rcases List.mem_cons.mp hx with rfl | hx
        · dsimp only
          by_cases haddr : e.iaaddr = r.iaaddr
          · rw [haddr]
            exact ⟨r, last_self, fun _ => rfl, fun hne => absurd hinactive hne⟩
          · have hsame : { e with active := 0 } = e := by
              rw [← hentry.resolve_left haddr]
            rw [hsame]
            exact hother (by simp) (.inr (Ne.symm haddr))
        · refine hother (List.mem_append_right _ (List.mem_cons_of_mem _ hx)) ?_
          by_cases haddr : x.iaaddr = r.iaaddr
          · exact .inl ⟨fun _ => hbehind x hx haddr, fun hne => absurd hinactive hne⟩
          · exact .inr (Ne.symm haddr)
    · have hroom := h.room
      simp only [List.length_append, List.length_cons] at hroom ⊢
      exact hroom

theorem right_full_iff (h : Right max records out) :
    Right max (records ++ [r]) out ↔ ∀ e ∈ out, e.iaaddr = r.iaaddr → HasState e r := by
  constructor
  · intro h' e he haddr
    obtain ⟨r₁, hr₁, hstate⟩ := h'.states e he
    rw [haddr, last_self] at hr₁
    obtain rfl := Option.some.inj hr₁
    exact hstate
  · intro hfits
    refine ⟨h.addresses, h.clients, fun e he => ?_, h.room⟩
    by_cases haddr : e.iaaddr = r.iaaddr
    · rw [haddr]
      exact ⟨r, last_self, hfits e he haddr⟩
    · exact h.state_other he (Ne.symm haddr)

/-- A record that is added to a right array leaves it right exactly if it fits. -/
theorem right_addRecord_iff (h : Right max records out) :
    Right max (records ++ [r]) (addRecord max out r) ↔ Fits max out r := by
  rw [addRecord]
  by_cases hroom : out.length < max
  · rw [if_pos hroom]
    rcases matches_cases r out with hnone | ⟨front, e, behind, rfl, hfront, he⟩
    · rw [mergeLease_new hnone]
      refine iff_of_true (h.add hnone hroom) ?_
      rw [Fits, if_pos hroom]
      rintro front e behind rfl - he
      exact absurd he (hnone e (by simp))
    · rw [mergeLease_first hfront he, fits_first hroom hfront he]
      by_cases hactive : r.active ≠ 0
      · rw [if_pos hactive, if_pos hactive]
        exact right_active_iff h hfront hactive
      · rw [if_neg hactive, if_neg hactive]
        exact right_inactive_iff h hfront (not_not.mp hactive)
  · rw [if_neg hroom, Fits, if_neg hroom]
    exact right_full_iff h

theorem right_nil (max : Nat) : Right max [] [] :=
  ⟨List.Pairwise.nil, List.Pairwise.nil, nofun, Nat.zero_le _⟩

theorem addRecords_append (r : Lease) :
    addRecords max (records ++ [r]) = addRecord max (addRecords max records) r := by
  rw [addRecords, List.foldl_append]
  rfl

end LeaseMerge
