import Mathlib.Data.List.Induction
import BoaGateway.RouteForms

/-!
# Records and routes after requests

For each request, what has to go well for the installed routes to be those of the enabled records
behind it; and that they are after every request of a run whose requests go well.
-/

namespace RouteAgreement

open ByteBlocks Texts TextFiles RouteTables RouteForms

variable {setup : Setup} {env : Env} {var : Vars} {select : Bytes}

/-- All records and routes go, or the first step fails. -/
def DeleteAllFits (env : Env) (s : V6State) : Prop :=
  ((∀ i < s.table.length, env.get i = true ∧ env.delete i = true) ∧
      ∀ e ∈ s.table, ipv6Kind.on e = true → ∃ j x, s.table[j]? = some x ∧
        ipv6Kind.key x = ipv6Kind.key e ∧ ipv6Kind.Works (env.remove j) x) ∨
    s.table ≠ [] ∧ (env.get (s.table.length - 1) = false ∨ env.delete (s.table.length - 1) = false)

/-- The record is read; the new route replaces the old one, or cannot be installed and the old
one comes back. -/
def UpdateV6Fits (env : Env) (entry : Ipv6Route) (select : Bytes) (s : V6State) : Prop :=
  ∀ idx, findLabel s.table.length select = some idx → checkIPv6Route env entry s.table ≠ 0 →
    env.get idx = true ∧ ∀ old, s.table[idx]? = some old →
      if ipv6Kind.on entry = true → ipv6Kind.Works env.install entry then
        env.update = true ∧
          (ipv6Kind.Leaves (env.remove idx) old (ipv6Kind.routes (s.table.eraseIdx idx)) ∨
            (ipv6Kind.on old = true →
              ipv6Kind.on entry = true ∧ ipv6Kind.key entry = ipv6Kind.key old))
      else ipv6Kind.Works (env.remove idx) old → env.reinstall = true

/-- A route that was installed gets its record. -/
def AddV6Fits (env : Env) (entry : Ipv6Route) (s : V6State) : Prop :=
  checkIPv6Route env entry s.table ≠ 0 → ipv6Kind.Works env.install entry →
    (s.table.length < maxRoutingEntrySize ∧ env.add = true) ∨ ipv6Kind.key entry ∈ s.installed

def V6Fits (setup : Setup) (env : Env) (var : Vars) (s : V6State) : Prop :=
  if var "delV6Route" ≠ [] then var "select" ≠ [] → ipv6Kind.DeleteFits env (var "select") s
  else if var "delAllV6Route" ≠ [] then DeleteAllFits env s
  else
    ∀ entry, parseIPv6 setup var = .ok entry →
      if var "updateV6Route" ≠ [] then UpdateV6Fits env entry (var "select") s
      else if var "addV6Route" ≠ [] then AddV6Fits env entry s
      else True

/-- What is wanted of a request. A record that is selected is the only one that a deletion or an
update affects. -/
structure V6Right (setup : Setup) (var : Vars) (s : V6State) (r : Reply × V6State) : Prop where
  right : ipv6Kind.Right maxRoutingEntrySize s r
  deleted : ∀ n, var "delV6Route" ≠ [] → var "select" = selectText n → r.1 = .ok →
    r.2.table = s.table.eraseIdx n
  updated : ∀ n entry, var "delV6Route" = [] → var "delAllV6Route" = [] →
    parseIPv6 setup var = .ok entry → var "updateV6Route" ≠ [] → var "select" = selectText n →
    r.1 = .ok → r.2.table = s.table.modify n fun old => { entry with instanceNum := old.instanceNum }

variable {s : V6State} {entry : Ipv6Route}

/-- The selected record is the one that is deleted. -/
theorem deleteSelected_table {R K : Type} [DecidableEq K] {k : Kind R K} {s : State R K}
    (hroom : s.table.length ≤ maxRoutingEntrySize) {n : Nat}
    (hok : (k.deleteSelected env (selectText n) s).1 = .ok) :
    (k.deleteSelected env (selectText n) s).2.table = s.table.eraseIdx n := by
  rw [Kind.deleteSelected, if_neg (selectText_ne n), findLabel_text hroom] at hok ⊢
  by_cases hlt : n < s.table.length
  · rw [if_pos hlt] at hok ⊢
    dsimp only at hok ⊢
    cases hread : env.read s.table n with
    | none =>
      rw [hread] at hok
      exact absurd hok (by simp)
    | some e =>
      rw [hread] at hok
      dsimp only at hok ⊢
      by_cases hdelete : env.delete n = true
      · rw [if_pos hdelete]
      · rw [if_neg hdelete] at hok
        exact absurd hok (by simp)
  · rw [if_neg hlt]
    exact (List.eraseIdx_of_length_le (Nat.le_of_not_lt hlt)).symm

theorem addIPv6_right (hs : ipv6Kind.Agree s) (hroom : s.table.length ≤ maxRoutingEntrySize) :
    ipv6Kind.Right maxRoutingEntrySize s (addIPv6 env entry s) ↔ AddV6Fits env entry s := by
  rw [addIPv6, AddV6Fits]
  by_cases hcheck : checkIPv6Route env entry s.table = 0
  · rw [if_pos hcheck]
    exact iff_of_true (.refl hs hroom _) fun h => absurd hcheck h
  · rw [if_neg hcheck]
    dsimp only
    by_cases hret : (ipv6Kind.cfgModify env.install entry false s.installed).1 = 0
    · rw [if_pos hret]
      have hinstall := (cfgModify_ret rfl _ _).mp hret
      have hinstalled : (ipv6Kind.cfgModify env.install entry false s.installed).2 =
          ipv6Kind.plus entry s.installed := (cfgModify_add_iff _).mpr fun hon => .inl (hinstall hon)
      have hkept : ipv6Kind.plus entry s.installed = s.installed ↔
          (ipv6Kind.Works env.install entry → ipv6Kind.key entry ∈ s.installed) := by
        rw [plus_eq_self]
        exact ⟨fun h hworks => h hworks.1, fun h hon => h (hinstall hon)⟩
      rw [hinstalled]
      rcases chainAdd_cases env maxRoutingEntrySize entry s.table with ⟨hfull, hadd⟩ |
          ⟨-, hfail, hadd⟩ | ⟨hless, htrue, hadd⟩
      · have hne : ¬((-1 : Int) = 0) := by decide
        rw [hadd, if_neg hne, if_pos rfl, right_error_iff hs hroom, hkept]
        refine ⟨fun h _ hworks => .inr (h hworks), fun h hworks => ?_⟩
        exact (h hcheck hworks).resolve_left fun h => absurd h.1 (Nat.not_lt.mpr hfull)
      · rw [hadd, if_pos rfl, right_error_iff hs hroom, hkept]
        refine ⟨fun h _ hworks => .inr (h hworks), fun h hworks => ?_⟩
        exact (h hcheck hworks).resolve_left fun h => absurd (h.2.symm.trans hfail) (by decide)
      · rw [hadd, if_neg (by omega), if_neg (by omega)]
        refine iff_of_true ⟨?_, ?_, nofun⟩ fun _ _ => .inl ⟨hless, htrue⟩
        · rw [Kind.Agree, routes_concat, ← hs]
        · rw [List.length_append, List.length_singleton]
          exact hless
    · rw [if_neg hret]
      have hnot : ¬ipv6Kind.Works env.install entry := fun h =>
        hret ((cfgModify_ret rfl _ _).mpr fun _ => h)
      rw [cfgModify_add, if_neg hnot]
      exact iff_of_true (.refl hs hroom _) fun _ h => absurd h hnot

theorem updateIPv6_right {idx : Nat} {old : Ipv6Route} (hs : ipv6Kind.Agree s)
    (hroom : s.table.length ≤ maxRoutingEntrySize) (hold : s.table[idx]? = some old)
    (hfits : if ipv6Kind.on entry = true → ipv6Kind.Works env.install entry then
        env.update = true ∧
          (ipv6Kind.Leaves (env.remove idx) old (ipv6Kind.routes (s.table.eraseIdx idx)) ∨
            (ipv6Kind.on old = true →
              ipv6Kind.on entry = true ∧ ipv6Kind.key entry = ipv6Kind.key old))
      else ipv6Kind.Works (env.remove idx) old → env.reinstall = true) :
    ipv6Kind.Right maxRoutingEntrySize s (updateIPv6 env entry old idx s) ∧
      ((updateIPv6 env entry old idx s).1 = .ok → (updateIPv6 env entry old idx s).2.table =
        s.table.set idx { entry with instanceNum := old.instanceNum }) := by
  have hinstalled : s.installed =
      ipv6Kind.plus old (ipv6Kind.routes (s.table.eraseIdx idx)) := hs.trans (routes_at hold)
  have hvalue := updateIPv6.eq_1 env entry old idx s
  dsimp only at hvalue
  split at hfits
  · rename_i hinstall
    obtain ⟨hupdate, hroute⟩ := hfits
    have hret : (ipv6Kind.cfgModify env.install { entry with instanceNum := old.instanceNum } false
        (ipv6Kind.cfgModify (env.remove idx) old true s.installed).2).1 = 0 :=
      (cfgModify_ret rfl env.install false).mpr hinstall
    rw [if_pos hret, Env.chainUpdate, if_pos hupdate] at hvalue
    rw [hvalue]
    refine ⟨⟨?_, ?_, nofun⟩, fun _ => rfl⟩
    · rw [Kind.Agree, routes_set hold, hinstalled]
      exact replaced hinstall hroute
    · rw [List.length_set]
      exact hroom
  · rename_i hinstall
    have hret : ¬(ipv6Kind.cfgModify env.install { entry with instanceNum := old.instanceNum } false
        (ipv6Kind.cfgModify (env.remove idx) old true s.installed).2).1 = 0 := fun h =>
      hinstall ((cfgModify_ret rfl _ _).mp h)
    have hnot : ¬ipv6Kind.Works env.install { entry with instanceNum := old.instanceNum } :=
      fun h => hinstall fun _ => h
    rw [if_neg hret, cfgModify_not hnot] at hvalue
    rw [hvalue]
    refine ⟨(right_error_iff hs hroom _).mpr ?_, nofun⟩
    rw [hinstalled]
    exact putBack hfits

/-- The loop of an update stops at the record that its text finds. -/
theorem updateLoop_found {total idx : Nat} {old : Ipv6Route}
    (h : findLabel total select = some idx) (hread : env.read s.table idx = some old) :
    updateLoop env entry select s total =
      if checkIPv6Route env entry s.table = 0 then (.error .invalidRule, s)
      else updateIPv6 env entry old idx s := by
  induction total with
  | zero => exact absurd h (by simp [findLabel])
  | succ total ih =>
    rw [findLabel] at h
    rw [updateLoop]
    by_cases hlabel : select = label total
    · rw [if_pos hlabel] at h ⊢
      obtain rfl := Option.some.inj h
      rw [hread]
    · rw [if_neg hlabel] at h ⊢
      exact ih h

theorem updateLoop_none {total : Nat} (h : findLabel total select = none) :
    updateLoop env entry select s total = (.ok, s) := by
  induction total with
  | zero => rfl
  | succ total ih =>
    rw [findLabel] at h
    rw [updateLoop]
    by_cases hlabel : select = label total
    · rw [if_pos hlabel] at h
      exact absurd h (by simp)
    · rw [if_neg hlabel] at h ⊢
      exact ih h

theorem updateLoop_invalid {total idx : Nat} (h : findLabel total select = some idx)
    (hcheck : checkIPv6Route env entry s.table = 0) :
    updateLoop env entry select s total = (.error .invalidRule, s) := by
  induction total with
  | zero => exact absurd h (by simp [findLabel])
  | succ total ih =>
    rw [findLabel] at h
    rw [updateLoop]
    by_cases hlabel : select = label total
    · rw [if_pos hlabel, if_pos hcheck]
    · rw [if_neg hlabel] at h ⊢
      exact ih h

theorem read_last {R : Type} {front : List R} {e : R} (hget : env.get front.length = true) :
    env.read (front ++ [e]) front.length = some e := by
  rw [Env.read, if_pos hget, List.getElem?_concat_length]

/-- All records go, and every route that the command takes away for one of them. -/
theorem deleteAllLoop_all (table : List Ipv6Route) (installed : Finset (Bytes × Bytes × Nat × Int))
    (hall : ∀ i < table.length, env.get i = true ∧ env.delete i = true) :
    ∃ left, deleteAllLoop env table.length ⟨table, installed⟩ = (.ok, ⟨[], left⟩) ∧
      ∀ x, x ∈ left ↔ x ∈ installed ∧ ∀ j e, table[j]? = some e →
        ipv6Kind.Works (env.remove j) e → ipv6Kind.key e ≠ x := by
  induction table using List.reverseRecOn generalizing installed with
  | nil => exact ⟨installed, rfl, fun x => ⟨fun h => ⟨h, nofun⟩, fun h => h.1⟩⟩
  | append_singleton front e ih =>
    have hlen : (front ++ [e]).length = front.length + 1 := by simp
    rw [hlen] at hall ⊢
    obtain ⟨hget, hdelete⟩ := hall front.length (Nat.lt_succ_self _)
    obtain ⟨left, hloop, hleft⟩ :=
      ih (ipv6Kind.cfgModify (env.remove front.length) e true installed).2
        fun i hi => hall i (Nat.lt_succ_of_lt hi)
    refine ⟨left, ?_, fun x => ?_⟩
    · rw [deleteAllLoop, read_last hget]
      dsimp only
      rw [if_pos hdelete, List.eraseIdx_append_of_length_le (Nat.le_refl _), Nat.sub_self,
        List.eraseIdx_cons_zero, List.append_nil]
      exact hloop
    · have hlast : x ∈ (ipv6Kind.cfgModify (env.remove front.length) e true installed).2 ↔
          x ∈ installed ∧
            (ipv6Kind.Works (env.remove front.length) e → ipv6Kind.key e ≠ x) := by
        rw [cfgModify_del]
        split
        · rename_i hworks
          rw [Finset.mem_erase]
          exact ⟨fun h => ⟨h.2, fun _ => Ne.symm h.1⟩, fun h => ⟨Ne.symm (h.2 hworks), h.1⟩⟩
        · rename_i hworks
          exact ⟨fun h => ⟨h, fun h' => absurd h' hworks⟩, fun h => h.1⟩
      rw [hleft, hlast]
      constructor
      · rintro ⟨⟨hx, hend⟩, hfront⟩
        refine ⟨hx, fun j y hy hworks => ?_⟩
        have hlt : j < front.length + 1 := by
          rw [← hlen]
          exact (List.getElem?_eq_some_iff.mp hy).1
        rcases Nat.lt_succ_iff_lt_or_eq.mp hlt with hlt | rfl
        · rw [List.getElem?_append_left hlt] at hy
          exact hfront j y hy hworks
        · rw [List.getElem?_concat_length] at hy
          obtain rfl := Option.some.inj hy
          exact hend hworks
      · rintro ⟨hx, hall⟩
        refine ⟨⟨hx, hall front.length e List.getElem?_concat_length⟩, fun j y hy hworks => ?_⟩
        have hlt : j < front.length := (List.getElem?_eq_some_iff.mp hy).1
        exact hall j y (by rw [List.getElem?_append_left hlt, hy]) hworks

theorem deleteAllLoop_right (hs : ipv6Kind.Agree s) (hroom : s.table.length ≤ maxRoutingEntrySize)
    (hfits : DeleteAllFits env s) :
    ipv6Kind.Right maxRoutingEntrySize s (deleteAllLoop env s.table.length s) := by
  rcases hfits with ⟨hall, hroutes⟩ | ⟨hne, hfirst⟩
  · obtain ⟨left, hloop, hleft⟩ := deleteAllLoop_all s.table s.installed hall
    rw [hloop]
    refine ⟨?_, Nat.zero_le _, nofun⟩
    have hempty : left = ∅ := by
      refine Finset.eq_empty_of_forall_notMem fun x hx => ?_
      obtain ⟨hx, hkept⟩ := (hleft x).mp hx
      rw [hs, mem_routes] at hx
      obtain ⟨e, he, hon, rfl⟩ := hx
      obtain ⟨j, y, hy, hkey, hworks⟩ := hroutes e he hon
      exact hkept j y hy hworks hkey
    rw [hempty]
    rfl
  · obtain ⟨n, hn⟩ := Nat.exists_eq_succ_of_ne_zero (List.length_pos_of_ne_nil hne).ne'
    rw [hn, Nat.succ_sub_one] at hfirst
    rw [hn, deleteAllLoop]
    cases hread : env.read s.table n with
    | none => exact .refl hs hroom _
    | some e =>
      have hget := (read_some hread).1
      have hdelete : env.delete n ≠ true := by
        rw [hfirst.resolve_left (by rw [hget]; decide)]
        decide
      dsimp only
      rw [if_neg hdelete]
      exact .refl hs hroom _

theorem set_modify {R : Type} {table : List R} {n : Nat} {old : R} (h : table[n]? = some old)
    (f : R → R) : table.set n (f old) = table.modify n f := by
  obtain ⟨hlt, rfl⟩ := List.getElem?_eq_some_iff.mp h
  rw [List.modify_eq_set_get _ hlt]
  rfl

theorem updateLoop_right (hs : ipv6Kind.Agree s) (hroom : s.table.length ≤ maxRoutingEntrySize)
    (hfits : UpdateV6Fits env entry select s) :
    ipv6Kind.Right maxRoutingEntrySize s (updateLoop env entry select s s.table.length) ∧
      ∀ n, select = selectText n → (updateLoop env entry select s s.table.length).1 = .ok →
        (updateLoop env entry select s s.table.length).2.table =
          s.table.modify n fun old => { entry with instanceNum := old.instanceNum } := by
  cases hlabel : findLabel s.table.length select with
  | none =>
    rw [updateLoop_none hlabel]
    refine ⟨.refl hs hroom _, fun n hselect _ => ?_⟩
    rw [hselect, findLabel_text hroom] at hlabel
    have hlen : s.table.length ≤ n := by
      by_contra hlt
      rw [if_pos (Nat.lt_of_not_le hlt)] at hlabel
      exact absurd hlabel (by simp)
    rw [List.modify_eq_self hlen]
  | some idx =>
    by_cases hcheck : checkIPv6Route env entry s.table = 0
    · rw [updateLoop_invalid hlabel hcheck]
      exact ⟨.refl hs hroom _, nofun⟩
    · obtain ⟨hget, hfits⟩ := hfits idx hlabel hcheck
      have hlt := (findLabel_some hlabel).1
      have hold : s.table[idx]? = some s.table[idx] := List.getElem?_eq_getElem hlt
      have hread : env.read s.table idx = some s.table[idx] := by
        rw [Env.read, if_pos hget, hold]
      rw [updateLoop_found hlabel hread, if_neg hcheck]
      obtain ⟨hright, htable⟩ := updateIPv6_right hs hroom hold (hfits _ hold)
      refine ⟨hright, fun n hselect hok => ?_⟩
      rw [hselect, findLabel_text hroom] at hlabel
      split at hlabel
      · obtain rfl := Option.some.inj hlabel
        rw [htable hok]
        exact set_modify hold fun old => { entry with instanceNum := old.instanceNum }
      · exact absurd hlabel (by simp)

/-- A request that goes well. -/
theorem formIPv6Route_right (hs : ipv6Kind.Agree s) (hroom : s.table.length ≤ maxRoutingEntrySize)
    (hfits : V6Fits setup env var s) :
    V6Right setup var s (formIPv6Route setup env var s) := by
  rw [V6Fits] at hfits
  rw [formIPv6Route]
  by_cases hdel : var "delV6Route" ≠ []
  · rw [if_pos hdel] at hfits ⊢
    refine ⟨(deleteSelected_right hs hroom).mpr hfits, fun n _ hselect hok => ?_,
      fun n entry hnot => absurd hnot hdel⟩
    rw [hselect] at hok ⊢
    exact deleteSelected_table hroom hok
  · rw [if_neg hdel] at hfits ⊢
    by_cases hall : var "delAllV6Route" ≠ []
    · rw [if_pos hall] at hfits ⊢
      exact ⟨deleteAllLoop_right hs hroom hfits, fun n hyes => absurd hyes hdel,
        fun n entry _ hnot => absurd hnot hall⟩
    · rw [if_neg hall] at hfits ⊢
      cases hparse : parseIPv6 setup var with
      | error message =>
        refine ⟨.refl hs hroom _, fun n hyes => absurd hyes hdel, fun n entry _ _ hok => ?_⟩
        rw [hparse] at hok
        exact absurd hok (by simp)
      | ok entry =>
        have hfits := hfits entry hparse
        dsimp only
        by_cases hupdate : var "updateV6Route" ≠ []
        · rw [if_pos hupdate] at hfits ⊢
          obtain ⟨hright, htable⟩ := updateLoop_right hs hroom hfits
          refine ⟨hright, fun n hyes => absurd hyes hdel, fun n entry' _ _ hok _ => ?_⟩
          obtain rfl := Except.ok.inj (hparse.symm.trans hok)
          exact htable n
        · rw [if_neg hupdate] at hfits ⊢
          have hno {r : Reply × V6State} (hright : ipv6Kind.Right maxRoutingEntrySize s r) :
              V6Right setup var s r :=
            ⟨hright, fun n hyes => absurd hyes hdel, fun n _ _ _ _ hyes => absurd hyes hupdate⟩
          by_cases hadd : var "addV6Route" ≠ []
          · rw [if_pos hadd] at hfits ⊢
            exact hno ((addIPv6_right hs hroom).mpr hfits)
          · rw [if_neg hadd]
            exact hno (.refl hs hroom _)

/-- The record is read and written, and the new route replaces the old one; or the check fails and
the old route comes back. -/
def UpdateIPFits (setup : Setup) (env : Env) (entry : IpRoute) (select : Bytes) (s : V4State) :
    Prop :=
  ∀ idx, findLabel s.table.length select = some idx →
    env.get idx = true ∧ ∀ old, s.table[idx]? = some old →
      if checkIP setup env s.table entry idx = 0 then
        ipKind.Works (env.remove idx) old → env.reinstall = true
      else
        env.update = true ∧ (ipKind.on entry = true → ipKind.Works env.install entry) ∧
          (ipKind.Leaves (env.remove idx) old (ipKind.routes (s.table.eraseIdx idx)) ∨
            (ipKind.on old = true → ipKind.on entry = true ∧ ipKind.key entry = ipKind.key old))

/-- The route of a new record is installed, or is there already. -/
def AddIPFits (setup : Setup) (env : Env) (entry : IpRoute) (s : V4State) : Prop :=
  checkIP setup env s.table entry (-1) ≠ 0 → s.table.length < maxRoutingEntrySize → env.add = true →
    ipKind.on entry = true → ipKind.Works env.install entry ∨ ipKind.key entry ∈ s.installed

def V4Fits (setup : Setup) (env : Env) (var : Vars) (s : V4State) : Prop :=
  if setup.defaultGatewayV2 = true ∧ var "dgwSet" ≠ [] then True
  else if var "delRoute" ≠ [] then var "select" ≠ [] → ipKind.DeleteFits env (var "select") s
  else
    ∀ entry, parseIP setup var = .ok entry →
      if var "updateRoute" ≠ [] then UpdateIPFits setup env entry (var "select") s
      else if var "addRoute" ≠ [] then AddIPFits setup env entry s
      else True

structure V4Right (setup : Setup) (var : Vars) (s : V4State) (r : Reply × V4State) : Prop where
  right : ipKind.Right maxRoutingEntrySize s r
  deleted : ∀ n, ¬(setup.defaultGatewayV2 = true ∧ var "dgwSet" ≠ []) → var "delRoute" ≠ [] →
    var "select" = selectText n → r.1 = .ok → r.2.table = s.table.eraseIdx n
  updated : ∀ n entry, ¬(setup.defaultGatewayV2 = true ∧ var "dgwSet" ≠ []) →
    var "delRoute" = [] → parseIP setup var = .ok entry → var "updateRoute" ≠ [] →
    var "select" = selectText n → r.1 = .ok →
    r.2.table = s.table.modify n fun old => { entry with instanceNum := old.instanceNum }

variable {t : V4State} {ipEntry : IpRoute}

theorem addIP_right (ht : ipKind.Agree t) (hroom : t.table.length ≤ maxRoutingEntrySize) :
    ipKind.Right maxRoutingEntrySize t (addIP setup env ipEntry t) ↔
      AddIPFits setup env ipEntry t := by
  rw [addIP, AddIPFits]
  by_cases hcheck : checkIP setup env t.table ipEntry (-1) = 0
  · rw [if_pos hcheck]
    exact iff_of_true (.refl ht hroom _) fun h => absurd hcheck h
  · rw [if_neg hcheck]
    dsimp only
    rcases chainAdd_cases env maxRoutingEntrySize ipEntry t.table with ⟨hfull, hadd⟩ |
        ⟨-, hfail, hadd⟩ | ⟨hless, htrue, hadd⟩
    · have hne : ¬((-1 : Int) = 0) := by decide
      rw [hadd, if_neg hne, if_pos rfl]
      exact iff_of_true (.refl ht hroom _) fun _ hless => absurd hless (Nat.not_lt.mpr hfull)
    · rw [hadd, if_pos rfl]
      exact iff_of_true (.refl ht hroom _) fun _ _ h => absurd (h.symm.trans hfail) (by decide)
    · rw [hadd, if_neg (by omega), if_neg (by omega)]
      have hagree : ipKind.Agree ⟨t.table ++ [ipEntry],
            (ipKind.cfgModify env.install ipEntry false t.installed).2⟩ ↔
          (ipKind.on ipEntry = true →
            ipKind.Works env.install ipEntry ∨ ipKind.key ipEntry ∈ t.installed) := by
        rw [← cfgModify_add_iff, Kind.Agree, routes_concat, ← ht]
      constructor
      · intro h _ _ _
        exact hagree.mp h.agree
      · intro h
        refine ⟨hagree.mpr (h hcheck hless htrue), ?_, nofun⟩
        rw [List.length_append, List.length_singleton]
        exact hless

theorem updateIP_right {idx : Nat} {old : IpRoute} (ht : ipKind.Agree t)
    (hroom : t.table.length ≤ maxRoutingEntrySize) (hget : env.get idx = true)
    (hold : t.table[idx]? = some old)
    (hfits : if checkIP setup env t.table ipEntry idx = 0 then
        ipKind.Works (env.remove idx) old → env.reinstall = true
      else
        env.update = true ∧ (ipKind.on ipEntry = true → ipKind.Works env.install ipEntry) ∧
          (ipKind.Leaves (env.remove idx) old (ipKind.routes (t.table.eraseIdx idx)) ∨
            (ipKind.on old = true →
              ipKind.on ipEntry = true ∧ ipKind.key ipEntry = ipKind.key old))) :
    ∃ r, updateIP setup env ipEntry idx t = some r ∧ ipKind.Right maxRoutingEntrySize t r ∧
      (r.1 = .ok →
        r.2.table = t.table.set idx { ipEntry with instanceNum := old.instanceNum }) := by
  have hinstalled : t.installed = ipKind.plus old (ipKind.routes (t.table.eraseIdx idx)) :=
    ht.trans (routes_at hold)
  have hread : env.read t.table idx = some old := by rw [Env.read, if_pos hget, hold]
  have hvalue := updateIP.eq_1 setup env ipEntry idx t
  rw [hread] at hvalue
  dsimp only at hvalue
  have hcheck : checkIP setup env t.table { ipEntry with instanceNum := old.instanceNum } idx =
      checkIP setup env t.table ipEntry idx := rfl
  rw [hcheck] at hvalue
  split at hfits
  · rename_i hzero
    rw [if_pos hzero, Option.map_some] at hvalue
    refine ⟨_, hvalue, (right_error_iff ht hroom _).mpr ?_, fun h => by cases h⟩
    rw [hinstalled]
    exact putBack hfits
  · rename_i hzero
    obtain ⟨hupdate, hinstall, hroute⟩ := hfits
    rw [if_neg hzero, Env.chainUpdate, if_pos hupdate] at hvalue
    refine ⟨_, hvalue, ⟨?_, ?_, fun _ h => by cases h⟩, fun _ => rfl⟩
    · rw [Kind.Agree, routes_set hold, hinstalled]
      exact replaced hinstall hroute
    · rw [List.length_set]
      exact hroom

/-- A request that goes well. -/
theorem formRoute_right (ht : ipKind.Agree t) (hroom : t.table.length ≤ maxRoutingEntrySize)
    (hfits : V4Fits setup env var t) :
    ∃ r, formRoute setup env var t = some r ∧ V4Right setup var t r := by
  rw [V4Fits] at hfits
  rw [formRoute]
  by_cases hdgw : setup.defaultGatewayV2 = true ∧ var "dgwSet" ≠ []
  · rw [if_pos hdgw]
    exact ⟨_, rfl, .refl ht hroom _, fun n hnot => absurd hdgw hnot,
      fun n entry hnot => absurd hdgw hnot⟩
  · rw [if_neg hdgw] at hfits ⊢
    by_cases hdel : var "delRoute" ≠ []
    · rw [if_pos hdel] at hfits ⊢
      refine ⟨_, rfl, (deleteSelected_right ht hroom).mpr hfits, fun n _ _ hselect hok => ?_,
        fun n entry _ hnot => absurd hnot hdel⟩
      rw [hselect] at hok ⊢
      exact deleteSelected_table hroom hok
    · rw [if_neg hdel] at hfits ⊢
      cases hparse : parseIP setup var with
      | error message =>
        refine ⟨_, rfl, .refl ht hroom _, fun n _ hyes => absurd hyes hdel,
          fun n entry _ _ hok => ?_⟩
        rw [hparse] at hok
        exact absurd hok (by simp)
      | ok entry =>
        have hfits := hfits entry hparse
        dsimp only
        by_cases hupdate : var "updateRoute" ≠ []
        · rw [if_pos hupdate] at hfits ⊢
          cases hlabel : findLabel t.table.length (var "select") with
          | none =>
            refine ⟨_, rfl, .refl ht hroom _, fun n _ hyes => absurd hyes hdel,
              fun n entry' _ _ _ _ hselect _ => ?_⟩
            rw [hselect, findLabel_text hroom] at hlabel
            have hlen : t.table.length ≤ n := by
              by_contra hlt
              rw [if_pos (Nat.lt_of_not_le hlt)] at hlabel
              exact absurd hlabel (by simp)
            rw [List.modify_eq_self hlen]
          | some idx =>
            obtain ⟨hget, hfits⟩ := hfits idx hlabel
            have hlt := (findLabel_some hlabel).1
            have hold : t.table[idx]? = some t.table[idx] := List.getElem?_eq_getElem hlt
            obtain ⟨r, hr, hright, htable⟩ := updateIP_right ht hroom hget hold (hfits _ hold)
            refine ⟨r, hr, hright, fun n _ hyes => absurd hyes hdel,
              fun n entry' _ _ hok _ hselect hreply => ?_⟩
            obtain rfl := Except.ok.inj (hparse.symm.trans hok)
            rw [hselect, findLabel_text hroom] at hlabel
            split at hlabel
            · obtain rfl := Option.some.inj hlabel
              rw [htable hreply]
              exact set_modify hold fun old => { entry with instanceNum := old.instanceNum }
            · exact absurd hlabel (by simp)
        · rw [if_neg hupdate] at hfits ⊢
          have hno {r : Reply × V4State} (hright : ipKind.Right maxRoutingEntrySize t r) :
              V4Right setup var t r :=
            ⟨hright, fun n _ hyes => absurd hyes hdel, fun n _ _ _ _ hyes => absurd hyes hupdate⟩
          by_cases hadd : var "addRoute" ≠ []
          · rw [if_pos hadd] at hfits ⊢
            exact ⟨_, rfl, hno ((addIP_right ht hroom).mpr hfits)⟩
          · rw [if_neg hadd]
            exact ⟨_, rfl, hno (.refl ht hroom _)⟩

/-- Both chains and both sets of installed routes. -/
structure Routing where
  v6 : V6State
  v4 : V4State

inductive Request where
  | formIPv6Route (env : Env) (var : Vars)
  | formRoute (env : Env) (var : Vars)

def step (setup : Setup) (c : Routing) : Request → Option (Reply × Routing)
  | .formIPv6Route env var =>
    let (reply, v6) := formIPv6Route setup env var c.v6
    some (reply, { c with v6 := v6 })
  | .formRoute env var =>
    (formRoute setup env var c.v4).map fun (reply, v4) => (reply, { c with v4 := v4 })

def run (setup : Setup) : List Request → Routing → Option Routing
  | [], c => some c
  | q :: requests, c => (step setup c q).bind fun r => run setup requests r.2

def Fits (setup : Setup) (c : Routing) : Request → Prop
  | .formIPv6Route env var => V6Fits setup env var c.v6
  | .formRoute env var => V4Fits setup env var c.v4

/-- The routes agree, and the chains are within their limit. -/
structure Agree (c : Routing) : Prop where
  v6 : ipv6Kind.Agree c.v6
  v4 : ipKind.Agree c.v4
  room6 : c.v6.table.length ≤ maxRoutingEntrySize
  room4 : c.v4.table.length ≤ maxRoutingEntrySize

/-- What is wanted of a request: the routes agree, an error changes nothing, the other form's
chain and routes are as before, and a selected record is the only one that is affected. -/
structure StepRight (setup : Setup) (c : Routing) (q : Request) (r : Reply × Routing) : Prop where
  agree : Agree r.2
  error : ∀ message, r.1 = .error message → r.2 = c
  selected : match q with
    | .formIPv6Route _ var => V6Right setup var c.v6 (r.1, r.2.v6) ∧ r.2.v4 = c.v4
    | .formRoute _ var => V4Right setup var c.v4 (r.1, r.2.v4) ∧ r.2.v6 = c.v6

theorem step_right {c : Routing} {q : Request} (hc : Agree c) (hfits : Fits setup c q) :
    ∃ r, step setup c q = some r ∧ StepRight setup c q r := by
  cases q with
  | formIPv6Route env var =>
    have h := formIPv6Route_right hc.v6 hc.room6 hfits
    rcases hr : formIPv6Route setup env var c.v6 with ⟨reply, v6⟩
    rw [hr] at h
    refine ⟨(reply, { c with v6 := v6 }), ?_, ⟨h.right.agree, hc.v4, h.right.room, hc.room4⟩,
      fun message hm => ?_, h, rfl⟩
    · rw [step, hr]
    · have hsame : v6 = c.v6 := h.right.error message hm
      dsimp only
      rw [hsame]
  | formRoute env var =>
    obtain ⟨⟨reply, v4⟩, hr, h⟩ := formRoute_right hc.v4 hc.room4 hfits
    refine ⟨(reply, { c with v4 := v4 }), ?_, ⟨hc.v6, h.right.agree, hc.room6, h.right.room⟩,
      fun message hm => ?_, h, rfl⟩
    · rw [step, hr]
      rfl
    · have hsame : v4 = c.v4 := h.right.error message hm
      dsimp only
      rw [hsame]

theorem run_append {requests : List Request} {q : Request} {c : Routing} :
    run setup (requests ++ [q]) c =
      (run setup requests c).bind fun c => (step setup c q).map Prod.snd := by
  induction requests generalizing c with
  | nil =>
    rw [List.nil_append, run, run, Option.bind_some]
    cases step setup c q with
    | none => rfl
    | some r => rfl
  | cons q' requests ih =>
    rw [List.cons_append, run, run]
    cases step setup c q' with
    | none => rfl
    | some r => exact ih

/-- In a run whose requests go well, every request keeps records and routes together. -/
theorem routes_agree {c : Routing} {requests : List Request} (hc : Agree c)
    (hfits : ∀ done q c', done ++ [q] <+: requests → run setup done c = some c' →
      Fits setup c' q) :
    ∀ done q, done ++ [q] <+: requests → ∃ c' r, run setup done c = some c' ∧
      step setup c' q = some r ∧ StepRight setup c' q r := by
  have hkeep (done : List Request) :
      done <+: requests → ∃ c', run setup done c = some c' ∧ Agree c' := by
    induction done using List.reverseRecOn with
    | nil => exact fun _ => ⟨c, rfl, hc⟩
    | append_singleton done q ih =>
      intro hpre
      obtain ⟨c', hrun, hagree⟩ := ih ((List.prefix_append done [q]).trans hpre)
      obtain ⟨r, hr, hright⟩ := step_right hagree (hfits done q c' hpre hrun)
      refine ⟨r.2, ?_, hright.agree⟩
      rw [run_append, hrun, Option.bind_some, hr]
      rfl
  intro done q hpre
  obtain ⟨c', hrun, hagree⟩ := hkeep done ((List.prefix_append done [q]).trans hpre)
  obtain ⟨r, hr, hright⟩ := step_right hagree (hfits done q c' hpre hrun)
  exact ⟨c', r, hrun, hr, hright⟩

def plainSetup : Setup :=
  ⟨fun _ => none, fun _ => false, fun _ => none, RouteCheck.sampleInetAddr, RouteCheck.mips, false⟩

/-- Everything is answered, and every command works. -/
def allWorks : Env :=
  ⟨fun _ => true, fun _ => true, fun _ => true, true, true, fun _ => true, true, true⟩

/-- A request for a route through an interface. -/
def addVars : Vars := fun name =>
  if name = "destNet" then ascii "2001:db8::/32"
  else if name = "interface" then ascii "65537"
  else if name = "enable" ∨ name = "addV6Route" then ascii "1"
  else []

def addedRoute : Ipv6Route := ⟨ascii "2001:db8::/32", [], 1, 65537, 0, 0⟩

theorem addVars_parse : parseIPv6 plainSetup addVars = .ok addedRoute := by rfl

/-- A chain with as many records as it can hold, none of them enabled. -/
def fullRouting : Routing :=
  ⟨⟨List.replicate 32 ⟨ascii "2001:db8:1::/48", [], 0, 65537, 0, 0⟩, ∅⟩, ⟨[], ∅⟩⟩

theorem routes_agree_add :
    ∃ c' r, run plainSetup [] ⟨⟨[], ∅⟩, ⟨[], ∅⟩⟩ = some c' ∧
      step plainSetup c' (.formIPv6Route allWorks addVars) = some r ∧
        StepRight plainSetup c' (.formIPv6Route allWorks addVars) r := by
  have hagree : Agree ⟨⟨[], ∅⟩, ⟨[], ∅⟩⟩ := ⟨rfl, rfl, Nat.zero_le _, Nat.zero_le _⟩
  have hrequests : [] ++ [Request.formIPv6Route allWorks addVars] <+:
      [.formIPv6Route allWorks addVars] := List.prefix_refl _
  refine routes_agree hagree (fun done q c' hpre hrun => ?_) [] _ hrequests
  have hlen := hpre.length_le
  rw [List.length_append, List.length_singleton, List.length_singleton] at hlen
  obtain rfl : done = [] := List.length_eq_zero_iff.mp (by omega)
  obtain ⟨rest, hrest⟩ := hpre
  obtain ⟨rfl, -⟩ := List.cons.inj hrest
  obtain rfl := Option.some.inj hrun
  have hdel : addVars "delV6Route" = [] ∧ addVars "delAllV6Route" = [] ∧
      addVars "updateV6Route" = [] ∧ addVars "addV6Route" ≠ [] := by decide
  rw [Fits, V6Fits, if_neg (not_not.mpr hdel.1), if_neg (not_not.mpr hdel.2.1)]
  intro entry _
  rw [if_neg (not_not.mpr hdel.2.2.1), if_pos hdel.2.2.2]
  exact fun _ _ => .inl ⟨by decide, rfl⟩

/-- The request fails, and its route stays. -/
theorem full_chain_keeps_route :
    Agree fullRouting ∧
      ∀ r, step plainSetup fullRouting (.formIPv6Route allWorks addVars) = some r →
      ¬StepRight plainSetup fullRouting (.formIPv6Route allWorks addVars) r := by
  constructor
  · have hroutes : fullRouting.v6.installed = ipv6Kind.routes fullRouting.v6.table := by decide
    exact ⟨hroutes, rfl, by decide, Nat.zero_le _⟩
  · intro r hr hright
    have hdel : addVars "delV6Route" = [] ∧ addVars "delAllV6Route" = [] ∧
        addVars "updateV6Route" = [] ∧ addVars "addV6Route" ≠ [] := by decide
    have hcheck : checkIPv6Route allWorks addedRoute fullRouting.v6.table ≠ 0 := by decide
    have hvalue : formIPv6Route plainSetup allWorks addVars fullRouting.v6 =
        (.error .tableFull, ⟨fullRouting.v6.table, {ipv6Kind.key addedRoute}⟩) := by
      rw [formIPv6Route, if_neg (not_not.mpr hdel.1), if_neg (not_not.mpr hdel.2.1), addVars_parse]
      dsimp only
      rw [if_neg (not_not.mpr hdel.2.2.1), if_pos hdel.2.2.2, addIPv6, if_neg hcheck]
      rfl
    rw [step, hvalue] at hr
    obtain rfl := Option.some.inj hr
    have hsame := congrArg (fun c => c.v6.installed) (hright.error .tableFull rfl)
    exact absurd hsame (Finset.singleton_ne_empty _)

end RouteAgreement
