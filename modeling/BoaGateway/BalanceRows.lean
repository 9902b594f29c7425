import Mathlib.Data.List.Perm.Basic
import BoaGateway.LoadBalance

/-!
# Rows and counts of the load balance pages

Hosts are printed under the WAN entries one by one. Each of them is printed once, and counted
where it is printed, exactly if the WAN that it belongs to is one of the entries and the index that
the search keeps from one round over the hosts to the next makes no difference.
-/

namespace BalanceRows

open ByteBlocks Texts PortMapping LoadBalance

section Groups

variable {α β : Type} [DecidableEq β] {f : α → β} {names : List β} {n : β}

/-- The elements of a list under the names that they have. -/
def grouped (f : α → β) (names : List β) (xs : List α) : List (β × α) :=
  names.flatMap fun n => (xs.filter fun x => f x = n).map fun x => (n, x)

/-- Every element that has one of the names is in one group. -/
theorem grouped_perm (hnodup : names.Nodup) (xs : List α) :
    ((grouped f names xs).map Prod.snd).Perm (xs.filter fun x => f x ∈ names) := by
  induction names generalizing xs with
  | nil => simp [grouped]
  | cons n names ih =>
    obtain ⟨hn, hrest⟩ := List.nodup_cons.mp hnodup
    -- the elements under the other names are those that are not under the first
    have hother : ∀ m ∈ names,
        (xs.filter fun x => !decide (f x = n)).filter (fun x => f x = m) =
          xs.filter fun x => f x = m := by
      intro m hm
      rw [List.filter_filter]
      refine List.filter_congr fun x _ => ?_
      by_cases hxm : f x = m
      · have hne : m ≠ n := fun heq => hn (by rw [← heq]; exact hm)
        simp [hxm, hne]
      · simp [hxm]
    have hgroups : grouped f names (xs.filter fun x => !decide (f x = n)) = grouped f names xs :=
      List.flatMap_congr fun m hm => by rw [hother m hm]
    have hperm := ih hrest (xs.filter fun x => !decide (f x = n))
    rw [hgroups] at hperm
    have hfirst : ((xs.filter fun x => f x = n).map fun x => (n, x)).map Prod.snd =
        xs.filter fun x => f x = n := by
      rw [List.map_map]
      exact List.map_id _
    have hall : (xs.filter fun x => f x ∈ n :: names).Perm
        ((xs.filter fun x => f x = n) ++
          ((xs.filter fun x => !decide (f x = n)).filter fun x => f x ∈ names)) := by
      refine (List.filter_append_perm (fun x => f x = n) _).symm.trans ?_
      rw [List.filter_filter, List.filter_filter, List.filter_filter]
      refine List.Perm.of_eq (congrArg₂ _ ?_ ?_)
      · refine List.filter_congr fun x _ => ?_
        by_cases hxn : f x = n
        · simp [hxn]
        · simp [hxn]
      · refine List.filter_congr fun x _ => ?_
        by_cases hxn : f x = n
        · simp [hxn]
        · simp [hxn]
    rw [grouped, List.flatMap_cons, List.map_append, hfirst]
    exact (hperm.append_left _).trans hall.symm

theorem grouped_perm_all (hnodup : names.Nodup) {xs : List α} (hall : ∀ x ∈ xs, f x ∈ names) :
    ((grouped f names xs).map Prod.snd).Perm xs := by
  have hperm := grouped_perm (f := f) hnodup xs
  rw [List.filter_eq_self.mpr fun x hx => decide_eq_true (hall x hx)] at hperm
  exact hperm

/-- As many elements as in the groups are there only if all of them have one of the names. -/
theorem grouped_all (hnodup : names.Nodup) {xs : List α}
    (hlen : ((grouped f names xs).map Prod.snd).length = xs.length) : ∀ x ∈ xs, f x ∈ names := by
  rw [(grouped_perm hnodup xs).length_eq, List.length_filter_eq_length_iff] at hlen
  exact fun x hx => of_decide_eq_true (hlen x hx)

/-- As many elements are under a name as have it. -/
theorem grouped_length (hnodup : names.Nodup) (hn : n ∈ names) (xs : List α) :
    ((grouped f names xs).filter fun p => p.1 = n).length =
      (xs.filter fun x => f x = n).length := by
  induction names with
  | nil => exact absurd hn List.not_mem_nil
  | cons m names ih =>
    obtain ⟨hm, hrest⟩ := List.nodup_cons.mp hnodup
    rw [grouped, List.flatMap_cons, List.filter_append, List.length_append]
    by_cases heq : m = n
    · have hnone : (grouped f names xs).filter (fun p => p.1 = n) = [] := by
        refine List.filter_eq_nil_iff.mpr fun p hp => ?_
        obtain ⟨k, hk, hp⟩ := List.mem_flatMap.mp hp
        obtain ⟨x, -, rfl⟩ := List.mem_map.mp hp
        have hne : k ≠ n := fun h => hm (by rw [heq, ← h]; exact hk)
        simpa using hne
      have hall : ((xs.filter fun x => f x = m).map fun x => (m, x)).filter (fun p => p.1 = n) =
          (xs.filter fun x => f x = m).map fun x => (m, x) := by
        refine List.filter_eq_self.mpr fun p hp => ?_
        obtain ⟨x, -, rfl⟩ := List.mem_map.mp hp
        exact decide_eq_true heq
      rw [grouped] at hnone
      rw [hnone, hall, List.length_map, heq]
      rfl
    · have hnone : ((xs.filter fun x => f x = m).map fun x => (m, x)).filter
          (fun p => p.1 = n) = [] := by
        refine List.filter_eq_nil_iff.mpr fun p hp => ?_
        obtain ⟨x, -, rfl⟩ := List.mem_map.mp hp
        simpa using heq
      have hrec := ih hrest ((List.mem_cons.mp hn).resolve_left (Ne.symm heq))
      rw [grouped] at hrec
      rw [hnone, hrec, List.length_nil, Nat.zero_add]

end Groups

/-- Every host is in one row, and under every WAN entry's name there are as many rows as are
counted for it. -/
def Right (S : Snapshot) : Prop :=
  ∃ rows, S.loadBalanceStatsList = some rows ∧ (rows.map Row.host).Perm S.hosts ∧
    ∀ e ∈ S.wans, ∀ name, S.ifGetName e.ifIndex = some name →
      S.lanDevNum e.ifIndex = some (rows.filter fun row => row.wanif = name).length

/-- The names of the WAN entries. -/
def wanNames (S : Snapshot) : List Bytes := S.wans.map fun e => (S.ifGetName e.ifIndex).getD []

/-- The WAN entries have different names. -/
structure Distinct (S : Snapshot) : Prop where
  named : ∀ e ∈ S.wans, S.ifGetName e.ifIndex ≠ none
  nodup : (wanNames S).Nodup

/-- The static entry of a host names a WAN that is there. A host without one has an interface with
a port, no mark is found for it, and where it has neither a rule nor a mark of its own the default
route is a WAN that is there. -/
def HostFits (S : Snapshot) (h : LanHost) : Prop :=
  match S.staticOf h with
  | some e => e.wanItfname.take 15 ∈ wanNames S
  | none => ∃ port, S.logicPort h.ifName = some port ∧ S.MarkFree h.ifName port ∧
      (S.rulesExist h.ifName port = false → S.dynamicWan h = none → S.defaultWan ∈ wanNames S)

/-- A host has a rule and no entry of its own, and no host before it has one. -/
def EarlyStale (S : Snapshot) : List LanHost → Prop
  | [] => False
  | h :: rest => S.ownEntry h = none ∧ (S.ruled h = true ∨ EarlyStale S rest)

/-- The last entry that a host is mapped to. -/
def lastEntry (S : Snapshot) : List LanHost → Option Nat
  | [] => none
  | h :: rest => (lastEntry S rest).or (S.ownEntry h)

/-- A host that is searched with the index of the round before finds the first entry there. -/
def IndexFits (S : Snapshot) : Prop := EarlyStale S S.hosts → ∀ i ∈ lastEntry S S.hosts, i = 0

/-- The hosts with their WANs, where the searches begin with an index. -/
def located (S : Snapshot) : List LanHost → Nat → List (LanHost × Bytes)
  | [], _ => []
  | h :: rest, idx => (h, S.wanAt h idx) :: located S rest (S.nextIdx h idx)

variable {S : Snapshot} {hosts : List LanHost} {name : Bytes}

/-- A name is compared as a whole. -/
theorem sameText_name (hname : name.length < 16) (s : Bytes) :
    sameText 16 s name = decide (s = name) := by
  have hiff : s.take 16 = name.take 16 ↔ s = name := by
    rw [List.take_of_length_le (Nat.le_of_lt hname)]
    constructor
    · intro h
      have hlen := congrArg List.length h
      rw [List.length_take] at hlen
      rw [List.take_of_length_le (by omega)] at h
      exact h
    · rintro rfl
      exact List.take_of_length_le (Nat.le_of_lt hname)
  rw [sameText, Bool.eq_iff_iff, beq_iff_eq, decide_eq_true_iff]
  exact hiff

theorem hostRows_eq (hnamed : ∀ e ∈ S.wans, S.ifGetName e.ifIndex ≠ none) (hwans : S.wans ≠ [])
    (hname : name.length < 16) (hplace : ∀ h ∈ hosts, S.Placed h) (idx : Nat) :
    ∃ rows, S.hostRows name hosts idx = some (rows, (lastEntry S hosts).getD idx) ∧
      rows.map (fun row => (row.wanif, row.host)) =
        ((located S hosts idx).filter fun p => p.2 = name).map fun p => (name, p.1) := by
  induction hosts generalizing idx with
  | nil => exact ⟨[], rfl, rfl⟩
  | cons h hosts ih =>
    obtain ⟨hfirst, hrest⟩ := List.forall_mem_cons.mp hplace
    obtain ⟨row, hhost, hwanif, hrow⟩ := hostRow_eq hnamed hwans hfirst name idx
    obtain ⟨rows, hrows, hmap⟩ := ih hrest (S.nextIdx h idx)
    rw [sameText_name hname] at hrow
    rw [Snapshot.hostRows, hrow, Option.bind_some]
    dsimp only
    rw [hrows, Option.map_some]
    refine ⟨_, congrArg some (Prod.ext rfl ?_), ?_⟩
    · dsimp only [Snapshot.nextIdx]
      rw [lastEntry]
      cases lastEntry S hosts with
      | some i => rfl
      | none => rfl
    · rw [List.map_append, hmap, located]
      by_cases hwan : S.wanAt h idx = name
      · rw [if_pos (decide_eq_true hwan), List.filter_cons, if_pos (decide_eq_true hwan)]
        simp [hhost, hwanif, hwan]
      · rw [if_neg (by simpa using hwan), List.filter_cons, if_neg (by simpa using hwan)]
        rfl

/-- The rounds over the hosts, where each begins with the index that it ends with. -/
theorem wanRows_eq {wans : List WanEntry} (hnamed : ∀ e ∈ S.wans, S.ifGetName e.ifIndex ≠ none)
    (hwans : S.wans ≠ []) (hsub : ∀ e ∈ wans, e ∈ S.wans) (hplace : ∀ h ∈ S.hosts, S.Placed h)
    (cmpWanName : Bytes) {idx : Nat} (hidx : (lastEntry S S.hosts).getD idx = idx) :
    ∃ rows, S.wanRows wans cmpWanName idx = some rows ∧
      rows.map (fun row => (row.wanif, row.host)) =
        (grouped Prod.snd (wans.map fun e => (S.ifGetName e.ifIndex).getD [])
          (located S S.hosts idx)).map fun p => (p.1, p.2.1) := by
  induction wans generalizing cmpWanName with
  | nil => exact ⟨[], rfl, rfl⟩
  | cons e wans ih =>
    obtain ⟨hfirst, hrest⟩ := List.forall_mem_cons.mp hsub
    obtain ⟨name, hname⟩ := Option.ne_none_iff_exists'.mp (hnamed e hfirst)
    obtain ⟨rows, hrows, hmap⟩ := hostRows_eq hnamed hwans (S.named _ _ hname).2 hplace idx
    obtain ⟨more, hmore, hmap'⟩ := ih hrest name
    rw [Snapshot.wanRows, hname]
    dsimp only [Option.getD_some]
    rw [hrows, hidx, Option.bind_some]
    dsimp only
    rw [hmore, Option.map_some]
    refine ⟨_, rfl, ?_⟩
    rw [List.map_append, hmap, hmap', List.map_cons, hname, grouped, grouped, List.flatMap_cons,
      List.map_append, List.map_map]
    rfl

theorem countHosts_eq (hnamed : ∀ e ∈ S.wans, S.ifGetName e.ifIndex ≠ none) (hwans : S.wans ≠ [])
    (hname : name.length < 16) (hplace : ∀ h ∈ hosts, S.Placed h) (idx lanNumCnt : Nat) :
    S.countHosts name hosts idx lanNumCnt =
      some (lanNumCnt + ((located S hosts idx).filter fun p => p.2 = name).length) := by
  induction hosts generalizing idx lanNumCnt with
  | nil => rfl
  | cons h hosts ih =>
    obtain ⟨hfirst, hrest⟩ := List.forall_mem_cons.mp hplace
    obtain ⟨found, hfound, hwan⟩ := countSearch_placed hnamed hwans hfirst idx
    rw [Snapshot.countHosts, hfound, Option.bind_some]
    dsimp only
    rw [hwan, sameText_name hname, ih hrest, located]
    by_cases hsame : S.wanAt h idx = name
    · rw [if_pos (decide_eq_true hsame), List.filter_cons, if_pos (decide_eq_true hsame),
        List.length_cons, Nat.add_assoc, Nat.add_comm 1]
    · rw [if_neg (by simpa using hsame), List.filter_cons, if_neg (by simpa using hsame)]

theorem hostRows_none (hnamed : ∀ e ∈ S.wans, S.ifGetName e.ifIndex ≠ none) (hwans : S.wans ≠ [])
    {h : LanHost} (hmem : h ∈ hosts) (hplace : ¬S.Placed h) (cmpWanName : Bytes) (idx : Nat) :
    S.hostRows cmpWanName hosts idx = none := by
  induction hosts generalizing idx with
  | nil => exact absurd hmem List.not_mem_nil
  | cons x hosts ih =>
    rw [Snapshot.hostRows]
    rcases List.mem_cons.mp hmem with rfl | hmem
    · rw [hostRow_none hnamed hwans hplace]
      rfl
    · cases S.hostRow cmpWanName x idx with
      | none => rfl
      | some result =>
        rw [Option.bind_some]
        dsimp only
        rw [ih hmem]
        rfl

/-- The rows are defined only if every host has a place. -/
theorem wanRows_placed (hnamed : ∀ e ∈ S.wans, S.ifGetName e.ifIndex ≠ none) (hwans : S.wans ≠ [])
    {e : WanEntry} {wans : List WanEntry} {cmpWanName : Bytes} {idx : Nat} {rows : List Row}
    (h : S.wanRows (e :: wans) cmpWanName idx = some rows) : ∀ x ∈ S.hosts, S.Placed x := by
  intro x hx
  by_contra hplace
  rw [Snapshot.wanRows, hostRows_none hnamed hwans hx hplace] at h
  exact absurd h (by simp)

/-- A host with an entry of its own, or without a rule, belongs to the same WAN with every index. -/
theorem wanAt_congr {h : LanHost} (hown : S.ownEntry h = none → S.ruled h = false) (i j : Nat) :
    S.wanAt h i = S.wanAt h j := by
  rw [Snapshot.wanAt, Snapshot.wanAt]
  cases hentry : S.ownEntry h with
  | some k => rw [Snapshot.nextIdx, Snapshot.nextIdx, hentry, Option.getD_some, Option.getD_some]
  | none => rw [hown hentry]; rfl

/-- A host with a rule and no entry of its own belongs to the WAN at the index. -/
theorem wanAt_stale {h : LanHost} (hown : S.ownEntry h = none) (hruled : S.ruled h = true) {i : Nat}
    (hi : (wanNames S)[i]? = some name) : S.wanAt h i = name := by
  have hstatic : S.staticOf h = none := by
    rw [Snapshot.ruled, Bool.and_eq_true, Option.isNone_iff_eq_none] at hruled
    exact hruled.1
  rw [wanNames, List.getElem?_map] at hi
  obtain ⟨e, he, hname⟩ := Option.map_eq_some_iff.mp hi
  rw [Snapshot.wanAt, hstatic, Snapshot.nextIdx, hown, if_pos hruled, Option.getD_none, he]
  exact hname

/-- The index of a round makes no difference where no host is searched with it. -/
theorem located_congr (hearly : ¬EarlyStale S hosts) (i j : Nat) :
    located S hosts i = located S hosts j := by
  induction hosts with
  | nil => rfl
  | cons h hosts ih =>
    have hown (hentry : S.ownEntry h = none) : S.ruled h = false ∧ ¬EarlyStale S hosts := by
      rw [EarlyStale, not_and, not_or, Bool.not_eq_true] at hearly
      exact hearly hentry
    rw [located, located, wanAt_congr (fun hentry => (hown hentry).1) i j, Snapshot.nextIdx,
      Snapshot.nextIdx]
    cases hentry : S.ownEntry h with
    | some k => rfl
    | none => rw [Option.getD_none, Option.getD_none, ih (hown hentry).2]

/-- How many hosts belong to a WAN. -/
def counted (S : Snapshot) (name : Bytes) (hosts : List LanHost) (idx : Nat) : Nat :=
  ((located S hosts idx).filter fun p => p.2 = name).length

theorem counted_cons (h : LanHost) (idx : Nat) :
    counted S name (h :: hosts) idx =
      (if S.wanAt h idx = name then 1 else 0) + counted S name hosts (S.nextIdx h idx) := by
  rw [counted, located, List.filter_cons]
  by_cases hwan : S.wanAt h idx = name
  · rw [if_pos (decide_eq_true hwan), if_pos hwan, List.length_cons, Nat.add_comm, counted]
  · rw [if_neg (by simpa using hwan), if_neg hwan, Nat.zero_add, counted]

/-- No host belongs to a WAN only because the searches begin with the index of another. -/
theorem counted_le {i : Nat} {other : Bytes} (hi : (wanNames S)[i]? = some other)
    (hne : other ≠ name) (j : Nat) :
    counted S name hosts i ≤ counted S name hosts j := by
  induction hosts with
  | nil => exact Nat.le_refl _
  | cons h hosts ih =>
    rw [counted_cons, counted_cons]
    cases hentry : S.ownEntry h with
    | some k =>
      rw [wanAt_congr (fun hnone => absurd (hentry.symm.trans hnone) (by simp)) i j,
        Snapshot.nextIdx, Snapshot.nextIdx, hentry]
      exact Nat.le_refl _
    | none =>
      rw [Snapshot.nextIdx, Snapshot.nextIdx, hentry, Option.getD_none, Option.getD_none]
      refine Nat.add_le_add ?_ ih
      cases hruled : S.ruled h with
      | true =>
        rw [wanAt_stale hentry hruled hi, if_neg hne]
        exact Nat.zero_le _
      | false => rw [wanAt_congr (fun _ => hruled) i j]

/-- More hosts belong to a WAN where the searches begin with its index. -/
theorem counted_lt {i j : Nat} {other : Bytes} (hi : (wanNames S)[i]? = some other)
    (hj : (wanNames S)[j]? = some name) (hne : other ≠ name) (hearly : EarlyStale S hosts) :
    counted S name hosts i < counted S name hosts j := by
  induction hosts with
  | nil => exact hearly.elim
  | cons h hosts ih =>
    obtain ⟨hentry, hearly⟩ := hearly
    rw [counted_cons, counted_cons, Snapshot.nextIdx, Snapshot.nextIdx, hentry, Option.getD_none,
      Option.getD_none]
    cases hruled : S.ruled h with
    | true =>
      rw [wanAt_stale hentry hruled hi, if_neg hne, wanAt_stale hentry hruled hj, if_pos rfl]
      have hle : counted S name hosts i ≤ counted S name hosts j := counted_le hi hne j
      omega
    | false =>
      have hlt := ih (hearly.resolve_left (by simp [hruled]))
      rw [wanAt_congr (fun _ => hruled) i j]
      omega

theorem lastEntry_lt {i : Nat} (h : lastEntry S hosts = some i) : i < S.wans.length := by
  induction hosts with
  | nil => exact absurd h (by simp [lastEntry])
  | cons x hosts ih =>
    rw [lastEntry, Option.or_eq_some_iff] at h
    rcases h with h | ⟨-, h⟩
    · exact ih h
    · rw [Snapshot.ownEntry] at h
      split at h
      · exact absurd h (by simp)
      · obtain ⟨port, -, hentry⟩ := Option.bind_eq_some_iff.mp h
        exact mappedEntry_lt hentry

theorem located_hosts (idx : Nat) : (located S hosts idx).map Prod.fst = hosts := by
  induction hosts generalizing idx with
  | nil => rfl
  | cons h hosts ih => rw [located, List.map_cons, ih]

/-- The WAN of every host is an entry exactly if the hosts fit. -/
theorem located_fit (hnamed : ∀ e ∈ S.wans, S.ifGetName e.ifIndex ≠ none) {idx : Nat}
    (hidx : idx < S.wans.length) (hplace : ∀ h ∈ hosts, S.Placed h) :
    (∀ p ∈ located S hosts idx, p.2 ∈ wanNames S) ↔ ∀ h ∈ hosts, HostFits S h := by
  induction hosts generalizing idx with
  | nil => simp [located]
  | cons h hosts ih =>
    obtain ⟨hfirst, hrest⟩ := List.forall_mem_cons.mp hplace
    have hnext : S.nextIdx h idx < S.wans.length := by
      rw [Snapshot.nextIdx]
      cases hentry : S.ownEntry h with
      | some k =>
        have hlast : lastEntry S [h] = some k := hentry
        exact lastEntry_lt hlast
      | none => exact hidx
    rw [located, List.forall_mem_cons, List.forall_mem_cons, ih hnext hrest]
    refine and_congr_left fun _ => ?_
    rw [HostFits, Snapshot.wanAt]
    cases hstatic : S.staticOf h with
    | some e => exact Iff.rfl
    | none =>
      obtain ⟨port, hport, hfree⟩ := hfirst.resolve_left (not_not.mpr hstatic)
      have hruled : S.ruled h = S.rulesExist h.ifName port := by
        rw [Snapshot.ruled, hstatic, hport]
        rfl
      have hget : S.wans[S.nextIdx h idx]? = some (S.wans.get ⟨_, hnext⟩) :=
        List.getElem?_eq_getElem hnext
      constructor
      · intro hname
        refine ⟨port, hport, hfree, fun hrules hdynamic => ?_⟩
        rw [hruled, hrules, if_neg Bool.false_ne_true, hdynamic] at hname
        exact hname
      · rintro ⟨port', hport', -, hdefault⟩
        obtain rfl := Option.some.inj (hport.symm.trans hport')
        cases hrules : S.rulesExist h.ifName port with
        | true =>
          rw [hruled, hrules, if_pos rfl, hget]
          exact List.mem_map.mpr ⟨_, List.get_mem _ _, rfl⟩
        | false =>
          rw [hruled, hrules, if_neg Bool.false_ne_true]
          cases hdynamic : S.dynamicWan h with
          | some wanif =>
            rw [Snapshot.dynamicWan] at hdynamic
            split at hdynamic
            · obtain ⟨e, he, hname⟩ := findDynamic_mem hnamed hdynamic
              exact List.mem_map.mpr ⟨e, he, by rw [hname]; rfl⟩
            · exact absurd hdynamic (by simp)
          | none => exact hdefault hrules hdynamic

/-- The rows of the first round and those of the others. -/
theorem rounds_eq (hnamed : ∀ e ∈ S.wans, S.ifGetName e.ifIndex ≠ none)
    (hconnected : S.wans.any S.isConnected = true) (hplace : ∀ h ∈ S.hosts, S.Placed h) :
    ∃ rows first rest, S.loadBalanceStatsList = some rows ∧ wanNames S = first :: rest ∧
      rows.map (fun row => (row.wanif, row.host)) =
        ((grouped Prod.snd [first] (located S S.hosts 0)) ++
          grouped Prod.snd rest (located S S.hosts ((lastEntry S S.hosts).getD 0))).map
            fun p => (p.1, p.2.1) := by
  obtain ⟨e, he, -⟩ := List.any_eq_true.mp hconnected
  have hwans : S.wans ≠ [] := List.ne_nil_of_mem he
  obtain ⟨first, rest, hcons⟩ := List.exists_cons_of_ne_nil hwans
  have hmem : ∀ x ∈ first :: rest, x ∈ S.wans := fun x hx => by rw [hcons]; exact hx
  obtain ⟨name, hname⟩ := Option.ne_none_iff_exists'.mp (hnamed first (hmem _ List.mem_cons_self))
  obtain ⟨rows, hrows, hmap⟩ := hostRows_eq hnamed hwans (S.named _ _ hname).2 hplace 0
  have hidx : (lastEntry S S.hosts).getD ((lastEntry S S.hosts).getD 0) =
      (lastEntry S S.hosts).getD 0 := by
    cases lastEntry S S.hosts with
    | some i => rfl
    | none => rfl
  obtain ⟨more, hmore, hmap'⟩ := wanRows_eq hnamed hwans
    (fun x hx => hmem x (List.mem_cons_of_mem first hx)) hplace name hidx
  refine ⟨rows ++ more, name, rest.map fun e => (S.ifGetName e.ifIndex).getD [], ?_, ?_, ?_⟩
  · rw [Snapshot.loadBalanceStatsList, if_pos hconnected, hcons, Snapshot.wanRows, hname]
    dsimp only [Option.getD_some]
    rw [hrows, Option.bind_some]
    dsimp only
    rw [hmore]
    rfl
  · rw [wanNames, hcons, List.map_cons, hname]
    rfl
  · have hfirst : grouped Prod.snd [name] (located S S.hosts 0) =
        ((located S S.hosts 0).filter fun p => p.2 = name).map fun p => (name, p) := by
      rw [grouped, List.flatMap_cons, List.flatMap_nil, List.append_nil]
    rw [List.map_append, List.map_append, hmap, hmap', hfirst, List.map_map]
    rfl

/-- The rows under a name are those of its groups. -/
theorem rows_under {rows : List Row} {groups : List (Bytes × LanHost × Bytes)}
    (hmap : rows.map (fun row => (row.wanif, row.host)) = groups.map fun p => (p.1, p.2.1)) :
    (rows.filter fun row => row.wanif = name).length =
      (groups.filter fun p => p.1 = name).length := by
  have hlen := congrArg (fun l => (l.filter fun p => p.1 = name).length) hmap
  simp only [List.filter_map, List.length_map] at hlen
  exact hlen

/-- A host with a rule only, before those that have an entry, is counted for one WAN and printed
under two. -/
theorem early_wrong (hdistinct : Distinct S) (hconnected : S.wans.any S.isConnected = true)
    (hplace : ∀ h ∈ S.hosts, S.Placed h) (hindex : ¬IndexFits S) : ¬Right S := by
  rintro ⟨rows, hrows, -, hcount⟩
  rw [IndexFits] at hindex
  push Not at hindex
  obtain ⟨hearly, i, hlast, hi⟩ := hindex
  obtain ⟨rows', first, rest, hrows', hnames, hmap⟩ :=
    rounds_eq hdistinct.named hconnected hplace
  obtain rfl := Option.some.inj (hrows.symm.trans hrows')
  have hlt := lastEntry_lt hlast
  have hnodup := hdistinct.nodup
  -- the name of the entry at the index that the first round ends with
  obtain ⟨e, he⟩ : ∃ e, S.wans[i]? = some e := ⟨_, List.getElem?_eq_getElem hlt⟩
  have hmem := List.mem_of_getElem? he
  obtain ⟨name, hname⟩ := Option.ne_none_iff_exists'.mp (hdistinct.named e hmem)
  have hat : (wanNames S)[i]? = some name := by
    rw [wanNames, List.getElem?_map, he, Option.map_some, hname, Option.getD_some]
  have hzero : (wanNames S)[0]? = some first := by rw [hnames]; rfl
  rw [hnames] at hnodup
  have hrest : name ∈ rest := by
    rw [hnames, ← Nat.succ_pred_eq_of_ne_zero hi, List.getElem?_cons_succ] at hat
    exact List.mem_of_getElem? hat
  have hne : first ≠ name := fun h => (List.nodup_cons.mp hnodup).1 (h ▸ hrest)
  have hunder : (rows.filter fun row => row.wanif = name).length =
      counted S name S.hosts i := by
    rw [rows_under hmap, List.filter_append, List.length_append, Option.mem_def.mp hlast,
      Option.getD_some, grouped_length (List.nodup_cons.mp hnodup).2 hrest, counted]
    have hnil : (grouped Prod.snd [first] (located S S.hosts 0)).filter
        (fun p => p.1 = name) = [] := by
      refine List.filter_eq_nil_iff.mpr fun p hp => ?_
      obtain ⟨n, hn, hp⟩ := List.mem_flatMap.mp hp
      obtain ⟨x, -, rfl⟩ := List.mem_map.mp hp
      obtain rfl := List.mem_singleton.mp hn
      simpa using hne
    rw [hnil, List.length_nil, Nat.zero_add]
  have hnumber := hcount e hmem name hname
  rw [Snapshot.lanDevNum, hname] at hnumber
  dsimp only at hnumber
  rw [countHosts_eq hdistinct.named (List.ne_nil_of_mem hmem) (S.named _ _ hname).2 hplace,
    Nat.zero_add, hunder, Option.some_inj] at hnumber
  exact absurd hnumber (Nat.ne_of_lt (counted_lt hzero hat hne hearly))

/-- Where no index is kept that matters, every round over the hosts finds the same. -/
theorem rows_eq (hnamed : ∀ e ∈ S.wans, S.ifGetName e.ifIndex ≠ none)
    (hconnected : S.wans.any S.isConnected = true) (hplace : ∀ h ∈ S.hosts, S.Placed h)
    (hindex : IndexFits S) :
    ∃ rows, S.loadBalanceStatsList = some rows ∧
      rows.map (fun row => (row.wanif, row.host)) =
        (grouped Prod.snd (wanNames S) (located S S.hosts 0)).map fun p => (p.1, p.2.1) := by
  obtain ⟨rows, first, rest, hrows, hnames, hmap⟩ := rounds_eq hnamed hconnected hplace
  have hsame : located S S.hosts ((lastEntry S S.hosts).getD 0) = located S S.hosts 0 := by
    by_cases hearly : EarlyStale S S.hosts
    · cases hlast : lastEntry S S.hosts with
      | some i => rw [Option.getD_some, hindex hearly i hlast]
      | none => rfl
    · exact located_congr hearly _ _
  refine ⟨rows, hrows, hmap.trans ?_⟩
  rw [hsame, hnames, grouped, grouped, grouped, ← List.flatMap_append]
  rfl

/-- The pages are right exactly if every host fits and no index is kept that matters. -/
theorem balance_iff (hdistinct : Distinct S) (hconnected : S.wans.any S.isConnected = true) :
    Right S ↔ (∀ h ∈ S.hosts, HostFits S h) ∧ IndexFits S := by
  obtain ⟨e, he, -⟩ := List.any_eq_true.mp hconnected
  have hwans : S.wans ≠ [] := List.ne_nil_of_mem he
  have hhosts (rows : List Row) (names : List Bytes)
      (hmap : rows.map (fun row => (row.wanif, row.host)) =
        (grouped Prod.snd names (located S S.hosts 0)).map fun p => (p.1, p.2.1)) :
      rows.map Row.host = ((grouped Prod.snd names (located S S.hosts 0)).map Prod.snd).map
        Prod.fst := by
    have hsnd := congrArg (List.map Prod.snd) hmap
    rw [List.map_map, List.map_map] at hsnd
    rw [List.map_map]
    exact hsnd
  constructor
  · intro hright
    obtain ⟨rows, hrows, hperm, -⟩ := id hright
    have hplace : ∀ h ∈ S.hosts, S.Placed h := by
      obtain ⟨first, rest, hcons⟩ := List.exists_cons_of_ne_nil hwans
      rw [Snapshot.loadBalanceStatsList, if_pos hconnected] at hrows
      have hrows' : S.wanRows (first :: rest) [] 0 = some rows := hcons ▸ hrows
      exact wanRows_placed hdistinct.named hwans hrows'
    have hindex : IndexFits S :=
      not_not.mp fun hindex => early_wrong hdistinct hconnected hplace hindex hright
    obtain ⟨rows', hrows', hmap⟩ := rows_eq hdistinct.named hconnected hplace hindex
    obtain rfl := Option.some.inj (hrows.symm.trans hrows')
    refine ⟨(located_fit hdistinct.named (List.length_pos_of_ne_nil hwans) hplace).mp ?_, hindex⟩
    -- as many rows as hosts leave no host out
    have hlen := hperm.length_eq
    have hsize : ((located S S.hosts 0).map Prod.fst).length = S.hosts.length :=
      congrArg List.length (located_hosts 0)
    rw [List.length_map] at hsize
    rw [hhosts rows _ hmap, List.length_map, ← hsize] at hlen
    exact grouped_all hdistinct.nodup hlen
  · rintro ⟨hfits, hindex⟩
    have hplace : ∀ h ∈ S.hosts, S.Placed h := fun h hh => by
      have hfit := hfits h hh
      rw [HostFits] at hfit
      cases hstatic : S.staticOf h with
      | some e => exact Or.inl (by rw [hstatic]; exact Option.some_ne_none e)
      | none =>
        rw [hstatic] at hfit
        obtain ⟨port, hport, hfree, -⟩ := hfit
        exact Or.inr ⟨port, hport, hfree⟩
    obtain ⟨rows, hrows, hmap⟩ := rows_eq hdistinct.named hconnected hplace hindex
    have hall := (located_fit hdistinct.named (List.length_pos_of_ne_nil hwans) hplace).mpr hfits
    refine ⟨rows, hrows, ?_, fun e he name hname => ?_⟩
    · have hperm := (grouped_perm_all hdistinct.nodup hall).map Prod.fst
      rw [located_hosts] at hperm
      rw [hhosts rows _ hmap]
      exact hperm
    · have hin : name ∈ wanNames S := List.mem_map.mpr ⟨e, he, by rw [hname, Option.getD_some]⟩
      rw [Snapshot.lanDevNum, hname]
      dsimp only
      rw [countHosts_eq hdistinct.named hwans (S.named _ _ hname).2 hplace, Nat.zero_add,
        rows_under hmap, grouped_length hdistinct.nodup hin]

/-- A text in an array of zeros. -/
def zeroFilled (n : Nat) (s : Bytes) : Block n :=
  ⟨(s ++ List.replicate n 0).take n, by simp⟩

/-- A host at an interface. -/
def hostAt (n : UInt8) (ifName : Bytes) : LanHost where
  mac := ⟨[0, 1, 2, 3, 4, n], rfl⟩
  devName := ascii "pc"
  ip := 0xC0A80102
  phyPort := 1
  ifName := zeroFilled 64 ifName
  rxPackets := 0
  txPackets := 0

/-- Four ports and the WANs `nas0_0`, `nas0_1`, whose mark is 5, and `nas0_2`, which has the first
port. The second port is bound to a VLAN that no entry has. -/
def threeWans (hosts : List LanHost) (wanItfname : Bytes) : Snapshot where
  ifGetName i :=
    if i = 0 then some (ascii "nas0_0") else if i = 1 then some (ascii "nas0_1")
    else if i = 2 then some (ascii "nas0_2") else none
  named i s h := by
    split at h
    · obtain rfl := Option.some.inj h
      decide
    · split at h
      · obtain rfl := Option.some.inj h
        decide
      · split at h
        · obtain rfl := Option.some.inj h
          decide
        · exact absurd h (by simp)
  wans := [⟨0, true, 10, 0⟩, ⟨1, true, 11, 0⟩, ⟨2, true, 12, 1⟩]
  portBindings := [⟨1, 1, ⟨7, 99⟩, ⟨0, 0⟩, ⟨0, 0⟩, ⟨0, 0⟩⟩]
  elanvif := [zeroFilled 16 (ascii "eth0.2.0"), zeroFilled 16 (ascii "eth0.3.0"),
    zeroFilled 16 (ascii "eth0.4.0"), zeroFilled 16 (ascii "eth0.5.0")]
  wlan := [zeroFilled 16 (ascii "wlan0")]
  swLanPortNum := 4
  elanvifNum := 4
  pmapWlan0 := 4
  wlanPortNum := 1
  ssidNum := 1
  policyMark name := if name = ascii "nas0_1" then some 5 else none
  hosts := hosts
  statics := [⟨wanItfname, ascii "00:01:02:03:04:01"⟩]
  conWan := some [⟨5, [ascii "00:01:02:03:04:04"]⟩]
  defaultWan := ascii "nas0_0"
  staEnable := true
  globalEnable := true
  dynEnable := true
  isConnected e := e.ifIndex = 1

theorem threeWans_distinct (hosts : List LanHost) (wanItfname : Bytes) :
    Distinct (threeWans hosts wanItfname) := by
  constructor
  · intro e he
    simp only [threeWans, List.mem_cons, List.not_mem_nil, or_false] at he
    rcases he with rfl | rfl | rfl
    · exact Option.some_ne_none _
    · exact Option.some_ne_none _
    · exact Option.some_ne_none _
  · rw [show wanNames (threeWans hosts wanItfname) =
      [ascii "nas0_0", ascii "nas0_1", ascii "nas0_2"] from rfl]
    decide

/-- A host for every stage of the search; the third is bound to a VLAN without an entry, and finds
the entry of the second. -/
def fiveHosts : List LanHost :=
  [hostAt 1 (ascii "eth0.2.0"), hostAt 2 (ascii "eth0.2.0"), hostAt 3 (ascii "eth0.3.0"),
    hostAt 4 (ascii "eth0.4.0"), hostAt 5 (ascii "wlan0")]

theorem balance_five_hosts : Right (threeWans fiveHosts (ascii "nas0_1")) := by
  refine (balance_iff (threeWans_distinct _ _) (by decide)).mpr ⟨?_, fun hearly => ?_⟩
  · intro h hh
    simp only [threeWans, fiveHosts, List.mem_cons, List.not_mem_nil, or_false] at hh
    rcases hh with rfl | rfl | rfl | rfl | rfl
    · show ascii "nas0_1" ∈ _
      decide
    · exact ⟨0, by decide, by decide, by decide⟩
    · exact ⟨1, by decide, by decide, by decide⟩
    · exact ⟨2, by decide, by decide, by decide⟩
    · exact ⟨4, by decide, by decide, by decide⟩
  · -- the first host has no rule, and the second has an entry of its own
    obtain ⟨-, hruled | ⟨hown, -⟩⟩ := hearly
    · exact absurd hruled (by decide)
    · exact absurd hown (by decide)

/-- The static entry names a WAN that is not there, and the host is in no row. -/
theorem lost_host :
    (Distinct (threeWans [hostAt 1 (ascii "eth0.2.0")] (ascii "nas0_3")) ∧
        (threeWans [hostAt 1 (ascii "eth0.2.0")] (ascii "nas0_3")).wans.any
          (threeWans [hostAt 1 (ascii "eth0.2.0")] (ascii "nas0_3")).isConnected = true) ∧
      ¬Right (threeWans [hostAt 1 (ascii "eth0.2.0")] (ascii "nas0_3")) := by
  refine ⟨⟨threeWans_distinct _ _, by decide⟩, ?_⟩
  rintro ⟨rows, hrows, hperm, -⟩
  have hvalue : (threeWans [hostAt 1 (ascii "eth0.2.0")] (ascii "nas0_3")).loadBalanceStatsList =
      some [] := by rfl
  obtain rfl := Option.some.inj (hvalue.symm.trans hrows)
  have hlen := hperm.length_eq
  exact absurd hlen (by decide)

end BalanceRows
