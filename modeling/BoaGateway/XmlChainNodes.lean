import BoaGateway.XmlLoad

/-!
# The ids of the collected records

The ids are gathered in a table of integers that has room for a hundred of them. When the table
is full it is reallocated with the number of ids for the number of bytes, which makes it smaller.
-/

namespace XmlChainNodes

open ByteBlocks MibTypes MibChain XmlLoad

variable {X : XmlTables}

/-- The table while it is filled. -/
structure IdTable where
  bytes : Nat
  info : Block bytes
  num : Nat
  currentSize : Nat

/-- `realloc`: what the new block has room for is kept; `fresh` is what lies in new memory. -/
def realloc (fresh : (n : Nat) → Block n) {m : Nat} (b : Block m) (n : Nat) : Block n :=
  ⟨b.1.take n ++ (fresh n).1.drop m, by
    rw [List.length_append, List.length_take, List.length_drop, b.2, (fresh n).2]
    omega⟩

def readId {n : Nat} (info : Block n) (i : Nat) : Option Nat :=
  (info.read (4 * i) 4).map fun b => leValue b.1

/-- The inner loop, from an index on: whether the id stands in the table. -/
def findId {n : Nat} (info : Block n) (id : Nat) : Nat → Nat → Option Bool
  | 0, _ => some false
  | left + 1, i =>
    match readId info i with
    | none => none
    | some x => if x = id then some true else findId info id left (i + 1)

/-- One round of the outer loop. -/
def addId (fresh : (n : Nat) → Block n) (t : IdTable) (id : Nat) : Option IdTable :=
  match findId t.info id t.num 0 with
  | none => none
  | some true => some t
  | some false =>
    let grown : IdTable :=
      if t.currentSize - 1 ≤ t.num then
        { bytes := t.currentSize + 100, info := realloc fresh t.info (t.currentSize + 100),
          num := t.num, currentSize := t.currentSize + 100 }
      else t
    (grown.info.write (4 * grown.num) (leBytes 4 id)).map fun info =>
      { grown with info := info, num := grown.num + 1 }

/-- `get_chainNodeId` with the memory of its table. -/
def chainNodeIdTable (fresh : (n : Nat) → Block n) (ids : List Nat) : Option IdTable :=
  ids.foldlM (addId fresh) { bytes := 400, info := Block.zeros 400, num := 0, currentSize := 100 }

/-- The table holds these ids, and an index below their number lies in the block. -/
structure IdTable.Holds (t : IdTable) (ids : List Nat) : Prop where
  num : t.num = ids.length
  entry : ∀ i id, ids[i]? = some id → readId t.info i = some id

theorem findId_eq {t : IdTable} {ids : List Nat} (h : t.Holds ids) (id : Nat) {left i : Nat}
    (hi : i + left = ids.length) :
    findId t.info id left i = some (decide (id ∈ ids.drop i)) := by
  induction left generalizing i with
  | zero =>
    rw [findId, List.drop_eq_nil_of_le (by omega)]
    simp
  | succ left ih =>
    have hlt : i < ids.length := by omega
    rw [findId, h.entry i ids[i] (List.getElem?_eq_getElem hlt), List.drop_eq_getElem_cons hlt]
    dsimp only
    by_cases heq : ids[i] = id
    · rw [if_pos heq]
      simp [heq]
    · have hmem : id ∈ ids[i] :: ids.drop (i + 1) ↔ id ∈ ids.drop (i + 1) := by
        rw [List.mem_cons]
        exact or_iff_right (Ne.symm heq)
      rw [if_neg heq, ih (by omega), decide_eq_decide.mpr hmem]

theorem readId_write {n : Nat} {info info' : Block n} {k id : Nat} (hid : id < 2 ^ 32)
    (h : info.write (4 * k) (leBytes 4 id) = some info') (i : Nat) :
    readId info' i = if i = k then some id else readId info i := by
  rw [readId, readId]
  split
  · rename_i heq
    subst heq
    obtain ⟨hin, -⟩ := Block.write_eq_some_iff.mp h
    rw [leBytes_length] at hin
    obtain ⟨v, hread, hfirst⟩ := Block.read_write_prefix h hin (leBytes_length 4 id).le
    have hv : v.1 = leBytes 4 id :=
      (hfirst.eq_of_length (by rw [leBytes_length, v.2])).symm
    rw [hread, Option.map_some, hv, leValue_leBytes hid]
  · rename_i hne
    rw [Block.read_write_disjoint h]
    rw [leBytes_length]
    omega

/-- One round on the ids alone. -/
def nextIds (info : List Nat) (id : Nat) : Option (List Nat) :=
  if id ∈ info then some info else if 99 ≤ info.length then none else some (info ++ [id])

/-- The table is the small one that it starts as, and holds fewer than a hundred ids. -/
structure IdTable.Small (t : IdTable) (ids : List Nat) : Prop extends t.Holds ids where
  bytes : t.bytes = 400
  currentSize : t.currentSize = 100
  few : ids.length < 100

/-- The hundredth id is written behind the block, which has become smaller. -/
theorem addId_follows (fresh : (n : Nat) → Block n) {t : IdTable} {ids : List Nat}
    (h : t.Small ids) {id : Nat} (hid : id < 2 ^ 32) :
    (nextIds ids id = none ∧ addId fresh t id = none) ∨
      ∃ ids' t', nextIds ids id = some ids' ∧ addId fresh t id = some t' ∧ t'.Small ids' := by
  have hfind : findId t.info id t.num 0 = some (decide (id ∈ ids)) := by
    rw [findId_eq h.toHolds id (by rw [h.num, Nat.zero_add]), List.drop_zero]
  have hfew := h.few
  rw [nextIds]
  by_cases hmem : id ∈ ids
  · right
    refine ⟨ids, t, if_pos hmem, ?_, h⟩
    rw [addId, hfind, decide_eq_true hmem]
  rw [if_neg hmem]
  obtain ⟨bytes, info, num, currentSize⟩ := t
  obtain ⟨⟨hnum, hentry⟩, hbytes, hsize, -⟩ := h
  dsimp only at hfind hnum hentry hbytes hsize
  subst hbytes hsize
  rw [addId]
  dsimp only
  rw [hfind, decide_eq_false hmem]
  dsimp only
  by_cases hfull : 99 ≤ ids.length
  · left
    rw [if_pos hfull, if_pos (by omega)]
    refine ⟨rfl, ?_⟩
    dsimp only
    rw [Option.map_eq_none_iff, Block.write, dif_neg]
    rw [leBytes_length]
    omega
  · right
    have hin : 4 * num + (leBytes 4 id).length ≤ 400 := by
      rw [leBytes_length]
      omega
    obtain ⟨info', hwrite⟩ := info.write_fits hin
    rw [if_neg hfull, if_neg (by omega)]
    dsimp only
    rw [hwrite]
    refine ⟨_, _, rfl, rfl, ⟨⟨by simp [hnum], ?_⟩, rfl, rfl, by
      rw [List.length_append, List.length_singleton]; omega⟩⟩
    intro i x hx
    dsimp only
    rw [readId_write hid hwrite]
    split
    · rename_i heq
      rw [heq, hnum, List.getElem?_concat_length] at hx
      exact hx
    · rename_i hne
      rw [List.getElem?_append] at hx
      split at hx
      · exact hentry i x hx
      · rename_i hge
        rw [List.getElem?_singleton, if_neg (by omega)] at hx
        cases hx

/-- The table follows the list of ids. -/
theorem addIds_follow (fresh : (n : Nat) → Block n) {ids : List Nat}
    (hids : ∀ id ∈ ids, id < 2 ^ 32) {t : IdTable} {done : List Nat} (h : t.Small done) :
    (ids.foldlM nextIds done = none ∧ ids.foldlM (addId fresh) t = none) ∨
      ∃ ids' t', ids.foldlM nextIds done = some ids' ∧ ids.foldlM (addId fresh) t = some t' ∧
        t'.Small ids' := by
  induction ids generalizing t done with
  | nil => exact Or.inr ⟨done, t, rfl, rfl, h⟩
  | cons id ids ih =>
    obtain ⟨hid, hrest⟩ := List.forall_mem_cons.mp hids
    rw [List.foldlM_cons, List.foldlM_cons]
    rcases addId_follows fresh h hid with ⟨hnone, hnone'⟩ | ⟨ids', t', hnext, hadd, hsmall⟩
    · rw [hnone, hnone']
      exact Or.inl ⟨rfl, rfl⟩
    · rw [hnext, hadd]
      exact ih hrest hsmall

theorem chainNodeIdTable_follows (fresh : (n : Nat) → Block n) {ids : List Nat}
    (hids : ∀ id ∈ ids, id < 2 ^ 32) :
    (getChainNodeId ids = none ∧ chainNodeIdTable fresh ids = none) ∨
      ∃ ids' t, getChainNodeId ids = some ids' ∧ chainNodeIdTable fresh ids = some t ∧
        t.Small ids' :=
  addIds_follow fresh hids ⟨⟨rfl, fun i id hi => by cases hi⟩, rfl, rfl, by decide⟩

/-- The distinct ids come out in the order of their first occurrence, if there are fewer than a
hundred. -/
theorem getChainNodeId_eq (ids : List Nat) :
    getChainNodeId ids = if ids.eraseDups.length < 100 then some ids.eraseDups else none := by
  have hall : ∀ done : List Nat, done.length < 100 → ids.foldlM nextIds done =
      if (done ++ (ids.filter fun id => id ∉ done).eraseDups).length < 100 then
        some (done ++ (ids.filter fun id => id ∉ done).eraseDups) else none := by
    induction ids with
    | nil =>
      intro done hdone
      rw [List.filter_nil, List.eraseDups_nil, List.append_nil, if_pos hdone]
      rfl
    | cons id ids ih =>
      intro done hdone
      rw [List.foldlM_cons, nextIds]
      by_cases hmem : id ∈ done
      · rw [if_pos hmem, List.filter_cons_of_neg (by simpa using hmem)]
        exact ih done hdone
      have hfilter : (fun x => !x == id && decide (x ∉ done)) = fun x =>
          decide (x ∉ done ++ [id]) := by
        funext x
        rw [Bool.eq_iff_iff]
        simp [and_comm]
      have hnext : done ++ ((id :: ids).filter fun id => id ∉ done).eraseDups =
          done ++ [id] ++ (ids.filter fun x => x ∉ done ++ [id]).eraseDups := by
        rw [List.filter_cons_of_pos (by simpa using hmem), List.eraseDups_cons,
          List.filter_filter, hfilter, List.append_assoc, List.singleton_append]
      have hlen : (done ++ [id]).length = done.length + 1 := List.length_append
      rw [if_neg hmem, hnext]
      by_cases hfull : 99 ≤ done.length
      · rw [if_pos hfull, if_neg]
        · rfl
        · rw [List.length_append, hlen]
          omega
      · rw [if_neg hfull]
        exact ih (done ++ [id]) (by omega)
  have hfilter : ids.filter (fun id => id ∉ ([] : List Nat)) = ids := by simp
  have hstart := hall [] (by decide)
  rw [hfilter, List.nil_append] at hstart
  exact hstart

theorem eraseDups_nodup {α : Type} [BEq α] [LawfulBEq α] (l : List α) : l.eraseDups.Nodup := by
  induction h : l.length using Nat.strongRecOn generalizing l with
  | ind n ih =>
    cases l with
    | nil => exact List.nodup_nil
    | cons a l =>
      rw [List.eraseDups_cons, List.nodup_cons]
      constructor
      · simp [List.mem_eraseDups]
      · refine ih _ ?_ _ rfl
        rw [← h, List.length_cons]
        exact Nat.lt_succ_of_le (List.length_filter_le _ _)

/-- The ids in the list of nodes, which has one node of id 0 when nothing was collected. -/
def nodeIds (head : List ((i : Nat) × Record X.toTables i)) : List Nat :=
  if head = [] then [0] else head.map fun node => (X.chainEntry node.1).id

/-- The records that were collected of a chain. -/
def recordsOf (i : Nat) (head : List ((j : Nat) × Record X.toTables j)) :
    List (Record X.toTables i) :=
  head.filterMap fun node => if h : node.1 = i then some (h ▸ node.2) else none

/-- Nothing but chains has changed. -/
structure Keeps (r r' : Ram X.toTables) : Prop where
  tables : ∀ m, r'.tbl m = r.tbl m
  headers : ∀ m, r'.header m = r.header m

/-- The chains of the nodes have the collected records, and nothing else has changed. -/
structure Replaces (head : List ((i : Nat) × Record X.toTables i)) (r r' : Ram X.toTables) :
    Prop extends Keeps r r' where
  chains : ∀ i, i < X.chainTable.length →
    r'.chains i = if i ∈ head.map (·.1) then recordsOf i head else r.chains i

variable {head : List ((i : Nat) × Record X.toTables i)}

theorem recordsOf_cons_self (i : Nat) (v : Record X.toTables i) :
    recordsOf i (⟨i, v⟩ :: head) = v :: recordsOf i head := by
  rw [recordsOf, List.filterMap_cons, dif_pos rfl]
  rfl

theorem recordsOf_cons_ne {i j : Nat} (h : j ≠ i) (v : Record X.toTables j) :
    recordsOf i (⟨j, v⟩ :: head) = recordsOf i head := by
  rw [recordsOf, List.filterMap_cons, dif_neg h]
  rfl

theorem recordsOf_eq_nil {i : Nat} (h : i ∉ head.map (·.1)) : recordsOf i head = [] := by
  rw [recordsOf, List.filterMap_eq_nil_iff]
  intro node hnode
  rw [dif_neg]
  rintro rfl
  exact h (List.mem_map_of_mem hnode)

theorem Keeps.trans {r r' r'' : Ram X.toTables} (h : Keeps r r') (h' : Keeps r' r'') :
    Keeps r r'' :=
  ⟨fun m => (h'.tables m).trans (h.tables m), fun m => (h'.headers m).trans (h.headers m)⟩

theorem setChain_keeps (r : Ram X.toTables) (i : Nat) (l : List (Record X.toTables i)) :
    Keeps r (Ram.setChain r i l) :=
  ⟨fun m => by cases m <;> rfl, fun m => by cases m <;> rfl⟩

theorem alloc_keeps (r : Ram X.toTables) (n : Nat) : Keeps r (r.alloc n) :=
  ⟨fun m => by cases m <;> rfl, fun m => by cases m <;> rfl⟩

theorem mibChainClear_keeps (r : Ram X.toTables) (id : Int) : Keeps r (mibChainClear r id) := by
  rw [mibChainClear]
  split
  · exact ⟨fun _ => rfl, fun _ => rfl⟩
  · exact setChain_keeps r _ _

/-- All chains of the ids are cleared, and no others. -/
theorem clearChains_chains (r : Ram X.toTables) (ids : List Nat) {i : Nat}
    (hi : i < X.chainTable.length) : (clearChains r ids).chains i =
      if (X.chainEntry i).id ∈ ids then [] else r.chains i := by
  induction ids generalizing r with
  | nil => rfl
  | cons id ids ih =>
    have hstep : (mibChainClear r id).chains i =
        if (X.chainEntry i).id = id then [] else r.chains i := by
      split
      · rename_i heq
        rw [mibChainClear, ← heq, mib2tblId_entry hi]
        exact Function.update_self ..
      · rename_i hne
        rw [mibChainClear]
        cases hid : mibChainMib2tblId X.toTables id with
        | none => rfl
        | some j =>
          apply Function.update_of_ne
          rintro rfl
          exact hne (Int.ofNat.inj (mib2tblId_inj (mib2tblId_entry hi) hid))
    rw [show clearChains r (id :: ids) = clearChains (mibChainClear r id) ids from rfl, ih, hstep]
    by_cases hmem : (X.chainEntry i).id ∈ ids
    · rw [if_pos hmem, if_pos (List.mem_cons_of_mem _ hmem)]
    · by_cases heq : (X.chainEntry i).id = id
      · rw [if_neg hmem, if_pos heq, if_pos (by rw [heq]; exact List.mem_cons_self)]
      · rw [if_neg hmem, if_neg heq, if_neg (by
          rw [List.mem_cons, not_or]
          exact ⟨heq, hmem⟩)]

theorem clearChains_keeps (r : Ram X.toTables) (ids : List Nat) : Keeps r (clearChains r ids) := by
  induction ids generalizing r with
  | nil => exact ⟨fun _ => rfl, fun _ => rfl⟩
  | cons id ids ih => exact (mibChainClear_keeps r id).trans (ih _)

theorem clearChains_heap (r : Ram X.toTables) (ids : List Nat) :
    (clearChains r ids).heap = r.heap := by
  induction ids generalizing r with
  | nil => rfl
  | cons id ids ih =>
    have hstep : (mibChainClear r id).heap = r.heap := by
      rw [mibChainClear]
      split <;> rfl
    exact (ih _).trans hstep

theorem mibChainAdd_isSome (r : Ram X.toTables) {id : Int} {i : Nat}
    (hid : mibChainMib2tblId X.toTables id = some i) {ptr : (n : Nat) → Option (Block n)}
    (hptr : ∃ v, ptr (X.chainEntry i).perRecordSize = some v) :
    ∃ res, mibChainAdd r id ptr = some res := by
  obtain ⟨v, hv⟩ := hptr
  rw [mibChainAdd, hid]
  dsimp only
  rw [hv]
  split
  · split <;> exact ⟨_, rfl⟩
  · exact ⟨_, rfl⟩

theorem mibChainAdd_keeps {r r' : Ram X.toTables} {id : Int} {ok : Bool}
    {ptr : (n : Nat) → Option (Block n)} (h : mibChainAdd r id ptr = some (ok, r')) :
    Keeps r r' ∧ ∀ i, mibChainMib2tblId X.toTables id ≠ some i → r'.chains i = r.chains i := by
  rw [mibChainAdd] at h
  split at h
  · cases h
    exact ⟨⟨fun _ => rfl, fun _ => rfl⟩, fun _ _ => rfl⟩
  rename_i j hj
  split at h
  · split at h
    · obtain ⟨value, -, heq⟩ := Option.map_eq_some_iff.mp h
      cases heq
      refine ⟨(alloc_keeps r 2).trans (setChain_keeps _ _ _), fun i hi => ?_⟩
      apply Function.update_of_ne
      rintro rfl
      exact hi hj
    · cases h
      exact ⟨alloc_keeps r 2, fun _ _ => rfl⟩
  · cases h
    exact ⟨alloc_keeps r 1, fun _ _ => rfl⟩

/-- What adding one record comes to: with memory for the node and the record it stands behind
the others, and else the chains stay as they are. -/
theorem addRecord_cases (r : Ram X.toTables) {i : Nat} (hi : i < X.chainTable.length)
    (v : Record X.toTables i) :
    ∃ ok r', mibChainAdd r (X.chainEntry i).id (fun n => v.read 0 n) = some (ok, r') ∧
      Keeps r r' ∧ ((r.heap 0 = true ∧ r.heap 1 = true ∧
        r' = Ram.setChain (r.alloc 2) i (r.chains i ++ [v])) ∨
        ((r.heap 0 = false ∨ r.heap 1 = false) ∧ r'.chains = r.chains)) := by
  have hread : v.read 0 (X.chainEntry i).perRecordSize = some v := by
    rw [Block.read_eq_some_iff, List.drop_zero, List.take_of_length_le v.2.le, Nat.zero_add]
    exact ⟨le_rfl, rfl⟩
  rw [mibChainAdd, mib2tblId_entry hi]
  dsimp only
  cases h0 : r.heap 0 with
  | false => exact ⟨false, r.alloc 1, rfl, alloc_keeps r 1, Or.inr ⟨Or.inl rfl, rfl⟩⟩
  | true =>
    cases h1 : r.heap 1 with
    | false => exact ⟨false, r.alloc 2, rfl, alloc_keeps r 2, Or.inr ⟨Or.inr rfl, rfl⟩⟩
    | true =>
      rw [hread]
      exact ⟨true, _, rfl, (alloc_keeps r 2).trans (setChain_keeps _ _ _),
        Or.inl ⟨rfl, rfl, rfl⟩⟩

theorem recordsOf_cons_length (head : List ((j : Nat) × Record X.toTables j)) (i : Nat) {j : Nat}
    (v : Record X.toTables j) : (recordsOf i (⟨j, v⟩ :: head)).length =
      (if i = j then 1 else 0) + (recordsOf i head).length := by
  split
  · rename_i heq
    subst heq
    rw [recordsOf_cons_self, List.length_cons, Nat.add_comm]
  · rename_i hne
    rw [recordsOf_cons_ne (Ne.symm hne), Nat.zero_add]

theorem setChain_length (r : Ram X.toTables) (n i j : Nat) (v : Record X.toTables j) :
    ((Ram.setChain (r.alloc n) j (r.chains j ++ [v])).chains i).length =
      (r.chains i).length + if i = j then 1 else 0 := by
  split
  · rename_i heq
    subst heq
    rw [setChain_chains, Function.update_self, List.length_append, List.length_singleton]
  · rename_i hne
    rw [setChain_chains, Function.update_of_ne hne]
    rfl

/-- The records are appended in their order if there is memory for all of them, and else a
chain lacks one. -/
theorem addRecords_cases (hhead : ∀ node ∈ head, node.1 < X.chainTable.length)
    (r : Ram X.toTables) : ∃ r', addRecords r head = some r' ∧ Keeps r r' ∧
      (∀ i, (r'.chains i).length ≤ (r.chains i).length + (recordsOf i head).length) ∧
      ((∀ k, k < 2 * head.length → r.heap k = true) →
        ∀ i, r'.chains i = r.chains i ++ recordsOf i head) ∧
      ((∃ k, k < 2 * head.length ∧ r.heap k = false) → ∃ i ∈ head.map (·.1),
        (r'.chains i).length < (r.chains i).length + (recordsOf i head).length) := by
  induction head generalizing r with
  | nil =>
    refine ⟨r, rfl, ⟨fun _ => rfl, fun _ => rfl⟩, fun i => le_rfl, fun _ i => ?_, ?_⟩
    · exact (List.append_nil _).symm
    · rintro ⟨k, hk, -⟩
      exact absurd hk (Nat.not_lt_zero k)
  | cons node head ih =>
    obtain ⟨hnode, hrest⟩ := List.forall_mem_cons.mp hhead
    obtain ⟨j, v⟩ := node
    have hj : j < X.chainTable.length := hnode
    obtain ⟨ok, r₁, hadd, hkeeps, hcases⟩ := addRecord_cases r hj v
    obtain ⟨r', hrun, hkeeps', hbound, hall, hmissing⟩ := ih hrest r₁
    refine ⟨r', by rw [addRecords, hadd]; exact hrun, hkeeps.trans hkeeps', ?_, ?_, ?_⟩
    · intro i
      have hle := hbound i
      have hlen := recordsOf_cons_length head i v
      rcases hcases with ⟨-, -, rfl⟩ | ⟨-, hsame⟩
      · have hset := setChain_length r 2 i j v
        omega
      · rw [hsame] at hle
        omega
    · intro hheap i
      rcases hcases with ⟨-, -, rfl⟩ | ⟨hfail, -⟩
      · have hheap' : ∀ k, k < 2 * head.length → r.heap (k + 2) = true := by
          intro k hk
          apply hheap
          rw [List.length_cons]
          omega
        rw [hall hheap' i]
        by_cases heq : i = j
        · subst heq
          rw [setChain_chains, Function.update_self, recordsOf_cons_self, List.append_assoc,
            List.singleton_append]
        · rw [setChain_chains, Function.update_of_ne heq, recordsOf_cons_ne (Ne.symm heq)]
          rfl
      · have h0 := hheap 0 (by rw [List.length_cons]; omega)
        have h1 := hheap 1 (by rw [List.length_cons]; omega)
        rcases hfail with hfail | hfail
        · rw [h0] at hfail
          cases hfail
        · rw [h1] at hfail
          cases hfail
    · rintro ⟨k, hk, hfalse⟩
      rcases hcases with ⟨h0, h1, rfl⟩ | ⟨-, hsame⟩
      · have hk0 : k ≠ 0 := by
          rintro rfl
          rw [h0] at hfalse
          cases hfalse
        have hk1 : k ≠ 1 := by
          rintro rfl
          rw [h1] at hfalse
          cases hfalse
        rw [List.length_cons] at hk
        obtain ⟨i, hi, hlt⟩ := hmissing ⟨k - 2, by omega, by
          show r.heap (k - 2 + 2) = false
          rw [show k - 2 + 2 = k by omega]
          exact hfalse⟩
        refine ⟨i, List.mem_cons_of_mem _ hi, ?_⟩
        have hlen := recordsOf_cons_length head i v
        have hset := setChain_length r 2 i j v
        omega
      · refine ⟨j, List.mem_cons_self, ?_⟩
        have hle := hbound j
        have hlen := recordsOf_cons_length head j v
        rw [hsame] at hle
        rw [if_pos rfl] at hlen
        omega

theorem mem_nodeIds (hne : head ≠ []) (hhead : ∀ node ∈ head, node.1 < X.chainTable.length)
    {i : Nat} (hi : i < X.chainTable.length) :
    (X.chainEntry i).id ∈ nodeIds head ↔ i ∈ head.map (·.1) := by
  rw [nodeIds, if_neg hne, List.mem_map, List.mem_map]
  constructor
  · rintro ⟨node, hnode, heq⟩
    exact ⟨node, hnode, chainEntry_inj (hhead node hnode) hi heq⟩
  · rintro ⟨node, hnode, rfl⟩
    exact ⟨node, hnode, rfl⟩

theorem nodeIds_lt (hhead : ∀ node ∈ head, node.1 < X.chainTable.length) :
    ∀ id ∈ nodeIds head, id < 2 ^ 32 := by
  intro id hid
  rw [nodeIds] at hid
  split at hid
  · rw [List.mem_singleton.mp hid]
    decide
  · obtain ⟨node, hnode, rfl⟩ := List.mem_map.mp hid
    have hlt := (X.chainTable_id _ (chainEntry_mem (hhead node hnode))).2
    omega

/-- What putting the records in place comes to. -/
theorem updateChainSetting_cases (hhead : ∀ node ∈ head, node.1 < X.chainTable.length)
    (r : Ram X.toTables) :
    (∃ r', updateChainSetting r head = some r' ∧ Replaces head r r') ↔
      (nodeIds head).eraseDups.length < 100 ∧ ∀ k, k < 2 * head.length → r.heap k = true := by
  have hterminator : mibChainMib2tblId X.toTables 0 = some X.chainTable.length :=
    mib2tblId_eq_some_iff.mpr (Or.inr ⟨rfl, rfl⟩)
  by_cases hempty : head = []
  · subst hempty
    have hids : nodeIds (X := X) [] = [0] := rfl
    have hsize : (X.chainEntry X.chainTable.length).perRecordSize = 0 := by
      rw [chainEntry_of_ge le_rfl]
      rfl
    rw [hids]
    refine ⟨fun _ => ⟨by decide, fun k hk => absurd hk (Nat.not_lt_zero k)⟩, fun _ => ?_⟩
    obtain ⟨⟨ok, r'⟩, hadd⟩ := mibChainAdd_isSome (mibChainClear r 0) hterminator
      ((Block.ofBytes []).read_fits (Nat.le_of_eq (by rw [hsize]; rfl)))
    obtain ⟨hkeeps, hothers⟩ := mibChainAdd_keeps hadd
    have hclear : ∀ i, i ≠ X.chainTable.length →
        (mibChainClear r 0).chains i = r.chains i := by
      intro i hi
      rw [mibChainClear, hterminator]
      exact Function.update_of_ne hi _ _
    refine ⟨r', by rw [updateChainSetting, if_pos rfl, hadd]; rfl,
      (mibChainClear_keeps r 0).trans hkeeps, ?_⟩
    intro i hi
    rw [hothers i (by rw [hterminator]; exact fun h => (Nat.ne_of_gt hi) (Option.some.inj h)),
      hclear i (Nat.ne_of_lt hi)]
    rfl
  · have hids : nodeIds head = head.map fun node => (X.chainEntry node.1).id := if_neg hempty
    rw [updateChainSetting, if_neg hempty, ← hids, getChainNodeId_eq]
    by_cases hfew : (nodeIds head).eraseDups.length < 100
    swap
    · rw [if_neg hfew]
      constructor
      · rintro ⟨r', h, -⟩
        cases h
      · intro h
        exact absurd h.1 hfew
    rw [if_pos hfew]
    have hcleared : ∀ i, i < X.chainTable.length →
        (clearChains r (nodeIds head).eraseDups).chains i =
          if i ∈ head.map (·.1) then [] else r.chains i := by
      intro i hi
      rw [clearChains_chains r _ hi]
      simp only [List.mem_eraseDups, mem_nodeIds hempty hhead hi]
    obtain ⟨r', hadd, hkeeps, -, hall, hmissing⟩ :=
      addRecords_cases hhead (clearChains r (nodeIds head).eraseDups)
    rw [clearChains_heap] at hall hmissing
    dsimp only
    constructor
    · rintro ⟨r'', hadd', hreplaces⟩
      cases hadd.symm.trans hadd'
      refine ⟨hfew, fun k hk => ?_⟩
      by_contra hfalse
      obtain ⟨i, hi, hlt⟩ := hmissing ⟨k, hk, Bool.eq_false_iff.mpr hfalse⟩
      obtain ⟨node, hnode, rfl⟩ := List.mem_map.mp hi
      rw [hcleared _ (hhead node hnode), if_pos hi, hreplaces.chains _ (hhead node hnode),
        if_pos hi] at hlt
      simp at hlt
    · rintro ⟨-, hheap⟩
      refine ⟨r', hadd, (clearChains_keeps r _).trans hkeeps, fun i hi => ?_⟩
      rw [hall hheap i, hcleared i hi]
      split
      · rfl
      · rename_i hother
        rw [recordsOf_eq_nil hother, List.append_nil]

/-- The table gets the distinct ids and the chains get the collected records exactly if the ids
are fewer than a hundred and there is memory for all records. -/
theorem chains_replaced_iff (fresh : (n : Nat) → Block n) (r : Ram X.toTables)
    (hhead : ∀ node ∈ head, node.1 < X.chainTable.length) :
    ((∃ t, chainNodeIdTable fresh (nodeIds head) = some t ∧
        t.Holds (nodeIds head).eraseDups) ∧
      ∃ r', updateChainSetting r head = some r' ∧ Replaces head r r') ↔
      (nodeIds head).eraseDups.length < 100 ∧ ∀ k, k < 2 * head.length → r.heap k = true := by
  rw [updateChainSetting_cases hhead r]
  refine ⟨fun h => h.2, fun h => ⟨?_, h⟩⟩
  rcases chainNodeIdTable_follows fresh (nodeIds_lt hhead) with
    ⟨hnone, -⟩ | ⟨ids, t, hids, htable, hsmall⟩
  · rw [getChainNodeId_eq, if_pos h.1] at hnone
    cases hnone
  · rw [getChainNodeId_eq, if_pos h.1] at hids
    cases hids
    exact ⟨t, htable, hsmall.toHolds⟩

/-- Records of both chains of the excerpt. -/
def sampleNodes : List ((i : Nat) × Record sampleXmlTables.toTables i) :=
  [⟨1, Block.zeros 13⟩, ⟨0, Block.zeros 7⟩, ⟨1, Block.zeros 13⟩]

theorem sampleNodes_replaced :
    (∃ t, chainNodeIdTable Block.zeros (nodeIds sampleNodes) = some t ∧
        t.Holds (nodeIds sampleNodes).eraseDups) ∧
      ∃ r', updateChainSetting (emptyRam sampleXmlTables.toTables) sampleNodes = some r' ∧
        Replaces sampleNodes (emptyRam sampleXmlTables.toTables) r' :=
  (chains_replaced_iff Block.zeros (emptyRam sampleXmlTables.toTables) (by decide)).mpr
    ⟨by decide, fun _ _ => rfl⟩

/-- A hundred different ids do not get into the table. -/
theorem hundredth_id_is_outside :
    ¬ ∀ (fresh : (n : Nat) → Block n) (ids : List Nat), (∀ id ∈ ids, id < 2 ^ 32) →
      ∃ t, chainNodeIdTable fresh ids = some t ∧ t.Holds ids.eraseDups := by
  intro hclaim
  have hids : ∀ id ∈ List.range' 3000 100, id < 2 ^ 32 := by
    intro id hid
    rw [List.mem_range'_1] at hid
    omega
  obtain ⟨t, htable, -⟩ := hclaim Block.zeros _ hids
  rcases chainNodeIdTable_follows Block.zeros hids with ⟨-, hnone⟩ | ⟨ids, t', hsome, -⟩
  · rw [hnone] at htable
    cases htable
  · have hfull : ¬ (List.range' 3000 100).eraseDups.length < 100 := by
      decide +kernel
    rw [getChainNodeId_eq, if_neg hfull] at hsome
    cases hsome

end XmlChainNodes
