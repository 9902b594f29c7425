import Mathlib.Data.Finset.Insert
import Mathlib.Data.Finset.Basic
import BoaGateway.MibText

/-!
# Records of routes and installed routes

A chain keeps records of routes, the enabled ones of which are to be installed. What a request
does with the chain and with the installed routes is described for records of any kind, with the
answers of the configuration server and of the route command.
-/

namespace RouteTables

open ByteBlocks Texts TextFiles

/-- What a kind of records has: `Enable`, the route, whether the function that installs it goes
on to the command, and what that function returns for a record that is not enabled. -/
structure Kind (R K : Type) where
  on : R → Bool
  key : R → K
  named : R → Bool
  off : Int

structure State (R K : Type) where
  table : List R
  installed : Finset K

/-- The answers during a request, for the record at an index: to the form's own read, to the read
of the check whether a route is there already, and to what follows. -/
structure Env where
  get : Nat → Bool
  look : Nat → Bool
  delete : Nat → Bool
  update : Bool
  add : Bool
  remove : Nat → Bool
  install : Bool
  reinstall : Bool

/-- The messages of the two forms, by the source's names, with the texts they repeat. -/
inductive Message where
  | errGetEntry
  | deleteChainError
  | noItemSelected
  | cantResolveDest (str : Bytes)
  | invalidSubnetMask (str : Bytes)
  | cantResolveMask (str : Bytes)
  | metric
  | invalidMetricRange
  | ifnameError (str : Bytes)
  | cantResolveNextHop (str : Bytes)
  | invalidRule
  | routeExisted
  | updateRouteFails
  | addingRouteFails
  | addChainError
  | tableFull
  | setMibError
  deriving DecidableEq

inductive Reply where
  | ok
  | error (message : Message)
  deriving DecidableEq

variable {R K : Type} [DecidableEq K]

/-- The routes of the enabled records. -/
def Kind.routes (k : Kind R K) (table : List R) : Finset K :=
  ((table.filter k.on).map k.key).toFinset

def Kind.Agree (k : Kind R K) (s : State R K) : Prop := s.installed = k.routes s.table

/-- `route_cfg_modify` and `route_v6_cfg_modify`. -/
def Kind.cfgModify (k : Kind R K) (works : Bool) (e : R) (del : Bool) (installed : Finset K) :
    Int × Finset K :=
  if k.on e then
    if k.named e && works then
      (0, if del then installed.erase (k.key e) else insert (k.key e) installed)
    else (-1, installed)
  else (k.off, installed)

/-- `snprintf` of `s%d` into four bytes. -/
def label (idx : Nat) : Bytes := (ascii "s" ++ numeral 10 idx).take 3

/-- The loop from the last index down. -/
def findLabel : Nat → Bytes → Option Nat
  | 0, _ => none
  | n + 1, select => if select = label n then some n else findLabel n select

/-- `mib_chain_get`. -/
def Env.read (env : Env) (table : List R) (idx : Nat) : Option R :=
  if env.get idx then table[idx]? else none

/-- The branch of `delRoute` and `delV6Route`. -/
def Kind.deleteSelected (k : Kind R K) (env : Env) (select : Bytes) (s : State R K) :
    Reply × State R K :=
  if select = [] then (.error .noItemSelected, s)
  else
    match findLabel s.table.length select with
    | none => (.ok, s)
    | some idx =>
      match env.read s.table idx with
      | none => (.error .errGetEntry, s)
      | some e =>
        if env.delete idx then
          (.ok, ⟨s.table.eraseIdx idx, (k.cfgModify (env.remove idx) e true s.installed).2⟩)
        else (.error .deleteChainError, s)

/-- `mib_chain_add`, for a chain of at most `limit` records. -/
def Env.chainAdd (env : Env) (limit : Nat) (e : R) (table : List R) : Int × List R :=
  if limit ≤ table.length then (-1, table)
  else if env.add then ((table.length : Int) + 1, table ++ [e])
  else (0, table)

/-- `mib_chain_update`. -/
def Env.chainUpdate (env : Env) (e : R) (idx : Nat) (table : List R) : List R :=
  if env.update then table.set idx e else table

variable {k : Kind R K} {env : Env} {s : State R K} {table front behind : List R} {e new : R}
  {installed B : Finset K}

/-- With the route of a record, if that is enabled. -/
def Kind.plus (k : Kind R K) (e : R) (B : Finset K) : Finset K :=
  if k.on e then insert (k.key e) B else B

theorem mem_routes {x : K} : x ∈ k.routes table ↔ ∃ e ∈ table, k.on e = true ∧ k.key e = x := by
  rw [Kind.routes, List.mem_toFinset, List.mem_map]
  simp only [List.mem_filter, and_assoc]

theorem routes_middle :
    k.routes (front ++ e :: behind) = k.plus e (k.routes (front ++ behind)) := by
  ext x
  rw [Kind.plus]
  split
  · rename_i hon
    rw [Finset.mem_insert, mem_routes, mem_routes]
    simp only [List.mem_append, List.mem_cons]
    constructor
    · rintro ⟨y, hy | rfl | hy, hyon, rfl⟩
      · exact .inr ⟨y, .inl hy, hyon, rfl⟩
      · exact .inl rfl
      · exact .inr ⟨y, .inr hy, hyon, rfl⟩
    · rintro (rfl | ⟨y, hy | hy, hyon, rfl⟩)
      · exact ⟨e, .inr (.inl rfl), hon, rfl⟩
      · exact ⟨y, .inl hy, hyon, rfl⟩
      · exact ⟨y, .inr (.inr hy), hyon, rfl⟩
  · rename_i hoff
    rw [mem_routes, mem_routes]
    simp only [List.mem_append, List.mem_cons]
    constructor
    · rintro ⟨y, hy | rfl | hy, hyon, rfl⟩
      · exact ⟨y, .inl hy, hyon, rfl⟩
      · exact absurd hyon hoff
      · exact ⟨y, .inr hy, hyon, rfl⟩
    · rintro ⟨y, hy | hy, hyon, rfl⟩
      · exact ⟨y, .inl hy, hyon, rfl⟩
      · exact ⟨y, .inr (.inr hy), hyon, rfl⟩

/-- A table is the other records and the one at an index. -/
theorem routes_at {idx : Nat} (h : table[idx]? = some e) :
    k.routes table = k.plus e (k.routes (table.eraseIdx idx)) := by
  obtain ⟨hlt, rfl⟩ := List.getElem?_eq_some_iff.mp h
  have hsplit : table = table.take idx ++ table[idx] :: table.drop (idx + 1) := by
    rw [List.getElem_cons_drop, List.take_append_drop]
  rw [List.eraseIdx_eq_take_drop_succ]
  nth_rewrite 1 [hsplit]
  exact routes_middle

theorem routes_set {idx : Nat} (h : table[idx]? = some e) (new : R) :
    k.routes (table.set idx new) = k.plus new (k.routes (table.eraseIdx idx)) := by
  obtain ⟨hlt, -⟩ := List.getElem?_eq_some_iff.mp h
  rw [List.set_eq_take_append_cons_drop, if_pos hlt, List.eraseIdx_eq_take_drop_succ]
  exact routes_middle

theorem routes_concat : k.routes (table ++ [new]) = k.plus new (k.routes table) := by
  rw [routes_middle, List.append_nil]

/-- The command does what it is called for. -/
def Kind.Works (k : Kind R K) (works : Bool) (e : R) : Prop :=
  k.on e = true ∧ k.named e = true ∧ works = true

instance (k : Kind R K) (works : Bool) (e : R) : Decidable (k.Works works e) :=
  inferInstanceAs (Decidable (_ ∧ _))

theorem cfgModify_del (works : Bool) :
    (k.cfgModify works e true installed).2 =
      if k.Works works e then installed.erase (k.key e) else installed := by
  by_cases hon : k.on e = true
  · by_cases hworks : k.named e = true ∧ works = true
    · simp [Kind.cfgModify, Kind.Works, hon, hworks]
    · simp only [Kind.cfgModify, Kind.Works, hon, hworks, Bool.and_eq_true, if_true, if_false,
        and_false]
  · simp [Kind.cfgModify, Kind.Works, hon]

theorem cfgModify_add (works : Bool) :
    (k.cfgModify works e false installed).2 =
      if k.Works works e then insert (k.key e) installed else installed := by
  by_cases hon : k.on e = true
  · by_cases hworks : k.named e = true ∧ works = true
    · simp [Kind.cfgModify, Kind.Works, hon, hworks]
    · simp only [Kind.cfgModify, Kind.Works, hon, hworks, Bool.and_eq_true, if_true, if_false,
        and_false]
  · simp [Kind.cfgModify, Kind.Works, hon]

/-- A record's route can go with the record: the command takes an enabled one away exactly if no
other enabled record has it. -/
def Kind.Leaves (k : Kind R K) (works : Bool) (e : R) (B : Finset K) : Prop :=
  k.on e = true → (k.Works works e ↔ k.key e ∉ B)

theorem cfgModify_del_iff (works : Bool) :
    (k.cfgModify works e true (k.plus e B)).2 = B ↔ k.Leaves works e B := by
  rw [cfgModify_del, Kind.plus, Kind.Leaves]
  by_cases hon : k.on e = true
  · rw [if_pos hon]
    by_cases hworks : k.Works works e
    · rw [if_pos hworks, Finset.erase_insert_eq_erase, Finset.erase_eq_self]
      exact ⟨fun h _ => iff_of_true hworks h, fun h => (h hon).mp hworks⟩
    · rw [if_neg hworks, Finset.insert_eq_self]
      exact ⟨fun h _ => iff_of_false hworks (not_not.mpr h),
        fun h => not_not.mp fun hnot => hworks ((h hon).mpr hnot)⟩
  · rw [if_neg fun h : k.Works works e => hon h.1, if_neg hon]
    exact iff_of_true rfl fun h => absurd h hon

/-- A route that is to be installed is, or is there already. -/
theorem cfgModify_add_iff (works : Bool) :
    (k.cfgModify works e false installed).2 = k.plus e installed ↔
      (k.on e = true → k.Works works e ∨ k.key e ∈ installed) := by
  rw [cfgModify_add, Kind.plus]
  by_cases hon : k.on e = true
  · rw [if_pos hon]
    by_cases hworks : k.Works works e
    · rw [if_pos hworks]
      exact iff_of_true rfl fun _ => .inl hworks
    · rw [if_neg hworks, eq_comm, Finset.insert_eq_self]
      exact ⟨fun h _ => .inr h, fun h => (h hon).resolve_left hworks⟩
  · rw [if_neg fun h : k.Works works e => hon h.1, if_neg hon]
    exact iff_of_true rfl fun h => absurd h hon

theorem cfgModify_ret (hoff : k.off = 0) (works del : Bool) :
    (k.cfgModify works e del installed).1 = 0 ↔ (k.on e = true → k.Works works e) := by
  by_cases hon : k.on e = true
  · by_cases hworks : k.named e = true ∧ works = true
    · simp [Kind.cfgModify, Kind.Works, hon, hworks]
    · simp only [Kind.cfgModify, Kind.Works, hon, hworks, Bool.and_eq_true, if_true, if_false,
        and_false, forall_const, iff_false]
      decide
  · simp [Kind.cfgModify, hon, hoff]

/-- A new version with the same route covers what the old one leaves behind. -/
theorem plus_del_same (works : Bool)
    (h : k.on e = true → k.on new = true ∧ k.key new = k.key e) :
    k.plus new (k.cfgModify works e true (k.plus e B)).2 = k.plus new B := by
  rw [cfgModify_del]
  by_cases hon : k.on e = true
  · obtain ⟨hnew, hkey⟩ := h hon
    rw [Kind.plus, Kind.plus, Kind.plus, if_pos hon, if_pos hnew, if_pos hnew, hkey]
    split
    · exact Finset.insert_erase (Finset.mem_insert_self _ _)
    · exact Finset.insert_idem _ _
  · have hsame : k.plus e B = B := if_neg hon
    rw [if_neg fun hworks : k.Works works e => hon hworks.1, hsame]

/-- The new route replaces the old one. -/
theorem replaced {works install : Bool} (hinstall : k.on new = true → k.Works install new)
    (hroute : k.Leaves works e B ∨ (k.on e = true → k.on new = true ∧ k.key new = k.key e)) :
    (k.cfgModify install new false (k.cfgModify works e true (k.plus e B)).2).2 =
      k.plus new B := by
  rw [(cfgModify_add_iff install).mpr fun hon => .inl (hinstall hon)]
  rcases hroute with hleaves | hcover
  · rw [(cfgModify_del_iff works).mpr hleaves]
  · exact plus_del_same works hcover

theorem cfgModify_not {works : Bool} (h : ¬k.Works works e) :
    (k.cfgModify works e false installed).2 = installed := by
  rw [cfgModify_add, if_neg h]

/-- A route that was taken away is put back. -/
theorem putBack {works again : Bool} (h : k.Works works e → again = true) :
    (k.cfgModify again e false (k.cfgModify works e true (k.plus e B)).2).2 = k.plus e B := by
  rw [cfgModify_add, cfgModify_del]
  by_cases hworks : k.Works works e
  · have hagain : k.Works again e := ⟨hworks.1, hworks.2.1, h hworks⟩
    rw [if_pos hworks, if_pos hagain, Kind.plus, if_pos hworks.1,
      Finset.insert_erase (Finset.mem_insert_self _ _)]
  · rw [if_neg hworks]
    split
    · rename_i hagain
      rw [Kind.plus, if_pos hagain.1]
      exact Finset.insert_idem _ _
    · rfl

theorem numeral_inj {m n : Nat} (h : numeral 10 m = numeral 10 n) : m = n := by
  have hm := MibText.readNumber_numeral m
  rw [h, MibText.readNumber_numeral n] at hm
  exact (Prod.mk.inj hm).2.symm

/-- The text that a form sends for a record. -/
def selectText (n : Nat) : Bytes := ascii "s" ++ numeral 10 n

theorem label_eq {idx : Nat} (h : idx < 32) : label idx = selectText idx := by
  have hall : ∀ idx < 32, label idx = selectText idx := by decide
  exact hall idx h

theorem selectText_ne (n : Nat) : selectText n ≠ [] := by
  rw [selectText]
  exact List.append_ne_nil_of_left_ne_nil (by decide) _

theorem findLabel_some {total idx : Nat} {select : Bytes} (h : findLabel total select = some idx) :
    idx < total ∧ select = label idx := by
  induction total with
  | zero => exact absurd h (by simp [findLabel])
  | succ total ih =>
    rw [findLabel] at h
    split at h
    · rename_i hlabel
      obtain rfl := Option.some.inj h
      exact ⟨Nat.lt_succ_self _, hlabel⟩
    · exact ⟨Nat.lt_succ_of_lt (ih h).1, (ih h).2⟩

/-- In a table that is within its limit, the text of a record finds that record. -/
theorem findLabel_text {total : Nat} (htotal : total ≤ 32) (n : Nat) :
    findLabel total (selectText n) = if n < total then some n else none := by
  induction total with
  | zero => rfl
  | succ total ih =>
    rw [findLabel, label_eq htotal, ih (Nat.le_of_succ_le htotal)]
    by_cases heq : n = total
    · rw [heq, if_pos rfl, if_pos (Nat.lt_succ_self _)]
    · have hne : selectText n ≠ selectText total := fun h =>
        heq (numeral_inj (List.append_cancel_left h))
      rw [if_neg hne]
      by_cases hlt : n < total
      · rw [if_pos hlt, if_pos (Nat.lt_succ_of_lt hlt)]
      · rw [if_neg hlt, if_neg (by omega)]

theorem read_some {idx : Nat} (h : env.read table idx = some e) :
    env.get idx = true ∧ table[idx]? = some e := by
  rw [Env.read] at h
  split at h
  · rename_i hget
    exact ⟨hget, h⟩
  · exact absurd h (by simp)

/-- The record that is deleted and its route go together. -/
def Kind.DeleteFits (k : Kind R K) (env : Env) (select : Bytes) (s : State R K) : Prop :=
  ∀ idx e, findLabel s.table.length select = some idx → env.read s.table idx = some e →
    env.delete idx = true → k.Leaves (env.remove idx) e (k.routes (s.table.eraseIdx idx))

/-- What is wanted of a request: the routes agree, the limit is kept, and an error changes
nothing. -/
structure Kind.Right (k : Kind R K) (limit : Nat) (s : State R K) (r : Reply × State R K) :
    Prop where
  agree : k.Agree r.2
  room : r.2.table.length ≤ limit
  error : ∀ message, r.1 = .error message → r.2 = s

theorem Kind.Right.refl {limit : Nat} (hs : k.Agree s) (hroom : s.table.length ≤ limit)
    (reply : Reply) : k.Right limit s (reply, s) :=
  ⟨hs, hroom, fun _ _ => rfl⟩

/-- An error behind which the table is as before. -/
theorem right_error_iff {limit : Nat} (hs : k.Agree s) (hroom : s.table.length ≤ limit)
    (message : Message) :
    k.Right limit s (.error message, ⟨s.table, installed⟩) ↔ installed = s.installed := by
  constructor
  · intro h
    exact congrArg State.installed (h.error message rfl)
  · rintro rfl
    exact .refl hs hroom _

theorem plus_eq_self : k.plus e B = B ↔ (k.on e = true → k.key e ∈ B) := by
  rw [Kind.plus]
  by_cases hon : k.on e = true
  · rw [if_pos hon, Finset.insert_eq_self]
    exact ⟨fun h _ => h, fun h => h hon⟩
  · rw [if_neg hon]
    exact iff_of_true rfl fun h => absurd h hon

theorem chainAdd_cases (env : Env) (limit : Nat) (e : R) (table : List R) :
    (limit ≤ table.length ∧ env.chainAdd limit e table = (-1, table)) ∨
      (table.length < limit ∧ env.add = false ∧ env.chainAdd limit e table = (0, table)) ∨
      table.length < limit ∧ env.add = true ∧
        env.chainAdd limit e table = ((table.length : Int) + 1, table ++ [e]) := by
  rw [Env.chainAdd]
  by_cases hfull : limit ≤ table.length
  · exact .inl ⟨hfull, if_pos hfull⟩
  · have hroom : table.length < limit := Nat.lt_of_not_le hfull
    rw [if_neg hfull]
    by_cases hadd : env.add = true
    · exact .inr (.inr ⟨hroom, hadd, if_pos hadd⟩)
    · exact .inr (.inl ⟨hroom, Bool.eq_false_iff.mpr hadd, if_neg hadd⟩)

/-- A deletion is right exactly if the record and its route go together. -/
theorem deleteSelected_right {limit : Nat} {select : Bytes} (hs : k.Agree s)
    (hroom : s.table.length ≤ limit) :
    k.Right limit s (k.deleteSelected env select s) ↔
      (select ≠ [] → k.DeleteFits env select s) := by
  rw [Kind.deleteSelected]
  by_cases hempty : select = []
  · rw [if_pos hempty]
    exact iff_of_true (.refl hs hroom _) fun hne => absurd hempty hne
  · rw [if_neg hempty]
    have hfits : (select ≠ [] → k.DeleteFits env select s) ↔ k.DeleteFits env select s :=
      ⟨fun h => h hempty, fun h _ => h⟩
    rw [hfits, Kind.DeleteFits]
    cases hlabel : findLabel s.table.length select with
    | none => exact iff_of_true (.refl hs hroom _) nofun
    | some idx =>
      dsimp only
      cases hread : env.read s.table idx with
      | none =>
        refine iff_of_true (.refl hs hroom _) fun idx' e h hread' => ?_
        obtain rfl := Option.some.inj h
        exact absurd (hread.symm.trans hread') (by simp)
      | some e =>
        dsimp only
        by_cases hdelete : env.delete idx = true
        · rw [if_pos hdelete]
          have hinstalled : s.installed = k.plus e (k.routes (s.table.eraseIdx idx)) :=
            hs.trans (routes_at (read_some hread).2)
          have hagree : k.Agree ⟨s.table.eraseIdx idx,
                (k.cfgModify (env.remove idx) e true s.installed).2⟩ ↔
              k.Leaves (env.remove idx) e (k.routes (s.table.eraseIdx idx)) := by
            rw [← cfgModify_del_iff, ← hinstalled]
            rfl
          constructor
          · intro h idx' e' h' hread' _
            obtain rfl := Option.some.inj h'
            obtain rfl := Option.some.inj (hread.symm.trans hread')
            exact hagree.mp h.agree
          · intro h
            refine ⟨hagree.mpr (h idx e rfl hread hdelete), ?_, nofun⟩
            exact (List.length_eraseIdx_le _ _).trans hroom
        · rw [if_neg hdelete]
          refine iff_of_true (.refl hs hroom _) fun idx' e' h' _ hdelete' => ?_
          obtain rfl := Option.some.inj h'
          exact absurd hdelete' hdelete

end RouteTables
