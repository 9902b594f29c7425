import BoaGateway.ListStore
import BoaGateway.MsgProcess

/-!
# The chains as a store of lists

Seven commands make the chains a store of lists: one list of records for every
id of `mib_chain_record_table`. While the settings are not locked and memory is
available, the requests and their answers are those of the abstract store. Two
things are not what the commands suggest. The total of an unknown id is zero and
no failure, and in a dual band build a swap goes across two neighbouring chains.
-/

namespace ChainStore

open ByteBlocks RequestRuns MibTypes MibChain MibContent MibValue MsgParser ListStore

variable {T : Tables}

/-- The list of records of every id. -/
def abs (c : Config T) (id : Int) : List Bytes :=
  match mibChainMib2tblId T id with
  | none => []
  | some i => (c.chains i).map (·.1)

def known (T : Tables) (id : Int) : Bool := (mibChainMib2tblId T id).isSome

def recordSize (T : Tables) (id : Int) : Nat :=
  match mibChainMib2tblId T id with
  | none => 0
  | some i => (T.chainEntry i).perRecordSize

/-- The record of the addressed chain that the client put into the shared memory. -/
def recordData (q : Request T) : Bytes := q.shm.1.take (recordSize T q.msg.arg1)

/-- The operation that a chain request asks for. -/
def opOf (q : Request T) : Option (Op Int Bytes) :=
  match lookup q.msg.cmd with
  | some .chainAdd => some (.add q.msg.arg1 (recordData q))
  | some .chainDelete => some (.delete q.msg.arg1 (entryNo q.msg))
  | some .chainClear => some (.clear q.msg.arg1)
  | some .chainUpdate => some (.update q.msg.arg1 (u32OfInt q.msg.arg2) (recordData q))
  | some .chainSwap =>
    let id := atoi q.msg.mtext.1
    some (.swap id (u32OfInt q.msg.arg1) (swapPartner T id) (u32OfInt q.msg.arg2))
  | some .chainTotal => some (.total q.msg.arg1)
  | some .chainGet => some (.get q.msg.arg1 (entryNo q.msg))
  | _ => none

/-- What a client reads from the answer to an operation. -/
def answerOf (op : Op Int Bytes) (s' : Configd T) (a : MyMsgBuf T) : Option (Answer Bytes) :=
  if a.request = msgFail then some .refused
  else if a.request = msgSucc then
    match op with
    | .total _ => some (.total a.arg1)
    | .get id _ => some (.record (s'.shm.1.take (recordSize T id)))
    | _ => some .done
  else none

/-- One round of the server as its client sees it. -/
def observe (s : Configd T) (q : Request T) : Option (Configd T × Option (Answer Bytes)) :=
  (serve s q).map fun res => (res.1, (opOf q).bind fun op => answerOf op res.1 res.2)

/-- One round of the abstract store. -/
def specStep (st : Int → List Bytes) (q : Request T) :
    (Int → List Bytes) × Option (Answer Bytes) :=
  match opOf q with
  | none => (st, none)
  | some op => ((step (known T) st op).1, some (step (known T) st op).2)

theorem abs_of_some {id : Int} {i : Nat} (hid : mibChainMib2tblId T id = some i)
    (c : Config T) : abs c id = (c.chains i).map (·.1) := by
  simp only [abs, hid]

theorem abs_length (r : Ram T) (id : Int) :
    (abs r.toConfig id).length = mibChainTotal r id := by
  cases hid : mibChainMib2tblId T id with
  | none => simp [abs, mibChainTotal, hid]
  | some i => simp [abs, mibChainTotal, hid]

/-- A new chain is a new list of one id. -/
theorem abs_setChain {r : Ram T} {id : Int} {i : Nat} (hid : mibChainMib2tblId T id = some i)
    (l : List (Record T i)) : abs (Ram.setChain r i l).toConfig =
      Function.update (abs r.toConfig) id (l.map (·.1)) := by
  funext j
  by_cases hj : j = id
  · subst hj
    simp [abs_of_some hid]
  · rw [Function.update_of_ne hj]
    cases hk : mibChainMib2tblId T j with
    | none => simp [abs, hk]
    | some k =>
      have hki : k ≠ i := by
        rintro rfl
        exact hj (mib2tblId_inj hk hid)
      simp [abs_of_some hk, hki]

/-- Following a record pointer, in both views. -/
theorem mibChainGet_cases (r : Ram T) (id : Int) (n : Nat) :
    (∃ i v, mibChainMib2tblId T id = some i ∧ (r.chains i)[n]? = some v ∧
      mibChainGet r id n = some (i, n) ∧
      record (known T) (abs r.toConfig) id n = some v.1) ∨
    (mibChainGet r id n = none ∧ record (known T) (abs r.toConfig) id n = none) := by
  cases hid : mibChainMib2tblId T id with
  | none =>
    refine Or.inr ⟨by simp only [mibChainGet, hid], ?_⟩
    exact record_eq_none_iff.mpr (Or.inl (by simp [known, hid]))
  | some i =>
    have hk : known T id = true := by simp [known, hid]
    by_cases hn : n < (r.chains i).length
    · refine Or.inl ⟨i, (r.chains i)[n], rfl, List.getElem?_eq_getElem hn, ?_, ?_⟩
      · simp [mibChainGet, mibChainTotal, hid, hn]
      · simp [record, hk, abs_of_some hid, hn]
    · refine Or.inr ⟨?_, ?_⟩
      · simp [mibChainGet, mibChainTotal, hid, Nat.le_of_not_lt hn]
      · refine record_eq_none_iff.mpr (Or.inr ?_)
        rw [abs_of_some hid, List.length_map]
        exact Nat.le_of_not_lt hn

theorem recordBytes_eq {r : Ram T} {i n : Nat} {v : Record T i}
    (hv : (r.chains i)[n]? = some v) :
    recordBytes r (i, n) (T.chainEntry i).perRecordSize = some v.1 := by
  have hread : v.read 0 (T.chainEntry i).perRecordSize = some v := by
    rw [Block.read_eq_some_iff]
    exact ⟨by omega, by rw [List.drop_zero, List.take_of_length_le v.2.le]⟩
  simp only [recordBytes, hv, hread, Option.map_some]

/-- Writing a whole record puts it into the list. -/
theorem writeRecord_eq {r : Ram T} {id : Int} {i n : Nat}
    (hid : mibChainMib2tblId T id = some i) {v : Record T i}
    (hv : (r.chains i)[n]? = some v) {data : Bytes}
    (hdata : data.length = (T.chainEntry i).perRecordSize) :
    ∃ r', writeRecord r (i, n) data = some r' ∧ r'.heap = r.heap ∧
      abs r'.toConfig = put (abs r.toConfig) id n data := by
  have hwrite : v.write 0 data = some ⟨data, hdata⟩ := by
    rw [Block.write_eq_some_iff]
    refine ⟨by omega, ?_⟩
    rw [List.take_zero, List.nil_append, List.drop_eq_nil_of_le (by rw [v.2]; omega),
      List.append_nil]
  refine ⟨Ram.setRecord r i n ⟨data, hdata⟩, ?_, rfl, ?_⟩
  · simp only [writeRecord, hv, hwrite, Option.map_some]
  · rw [Ram.setRecord, abs_setChain hid, put, abs_of_some hid, List.map_set]

theorem recordSize_le (T : Tables) (id : Int) : recordSize T id ≤ T.shmSize := by
  unfold recordSize
  split
  · exact Nat.zero_le _
  · rename_i i hid
    by_cases hi : i < T.chainTable.length
    · exact (T.chainTable_size _ (chainEntry_mem hi)).2.2
    · rw [chainEntry_of_ge (Nat.le_of_not_lt hi)]
      exact Nat.zero_le _

theorem recordSize_eq {id : Int} {i : Nat} (hid : mibChainMib2tblId T id = some i) :
    recordSize T id = (T.chainEntry i).perRecordSize := by
  simp only [recordSize, hid]

/-- The shared memory holds a record of every chain. -/
theorem shm_record (shm : Block T.shmSize) {id : Int} {i : Nat}
    (hid : mibChainMib2tblId T id = some i) : ∃ v : Record T i,
      shm.read 0 (T.chainEntry i).perRecordSize = some v ∧
      v.1 = shm.1.take (recordSize T id) := by
  have hle := recordSize_le T id
  rw [recordSize_eq hid] at hle ⊢
  refine ⟨⟨shm.1.take (T.chainEntry i).perRecordSize, ?_⟩, ?_, rfl⟩
  · rw [List.length_take, shm.2]
    omega
  · rw [Block.read_eq_some_iff]
    exact ⟨by omega, rfl⟩

/-- The settings are not locked, and every allocation succeeds. -/
structure Ready (s : Configd T) : Prop where
  unlocked : s.mibLock = false
  memory : ∀ n, s.ram.heap n = true

/-- The server answers like the store, and its chains are the new lists. -/
def Refines (st : Int → List Bytes) (op : Op Int Bytes)
    (res : Option (Configd T × MyMsgBuf T)) : Prop :=
  ∃ s' a, res = some (s', a) ∧ Ready s' ∧ abs s'.ram.toConfig = (step (known T) st op).1 ∧
    answerOf op s' a = some (step (known T) st op).2

theorem refines_refused {s : Configd T} (hs : Ready s) {op : Op Int Bytes}
    (hstep : step (known T) (abs s.ram.toConfig) op = (abs s.ram.toConfig, .refused))
    (q : MyMsgBuf T) :
    Refines (abs s.ram.toConfig) op (some (s, q.reply msgFail)) := by
  refine ⟨s, _, rfl, hs, ?_, ?_⟩
  · rw [hstep]
  · rw [hstep]
    rfl

theorem cfgChainAdd_refines {s : Configd T} (hs : Ready s) (q : MyMsgBuf T) :
    Refines (abs s.ram.toConfig) (.add q.arg1 (s.shm.1.take (recordSize T q.arg1)))
      (cfgChainAdd s q) := by
  have hlock : cfgChainAdd s q =
      withRam s q (mibChainAdd s.ram q.arg1 fun n => s.shm.read 0 n) :=
    unlessLocked_of_unlocked hs.unlocked q
  rw [hlock]
  cases hid : mibChainMib2tblId T q.arg1 with
  | none =>
    simp only [mibChainAdd, hid]
    refine refines_refused hs ?_ q
    simp [step, known, hid]
  | some i =>
    obtain ⟨v, hread, hv⟩ := shm_record s.shm hid
    rw [mibChainAdd_eq (hs.memory 0) (hs.memory 1) hid hread]
    refine ⟨_, _, rfl, ⟨hs.unlocked, fun n => hs.memory (n + 2)⟩, ?_, ?_⟩
    · simp only [step, known, hid, Option.isSome_some, if_true]
      rw [abs_setChain hid, abs_of_some hid, ← hv, List.map_append]
      rfl
    · simp only [step, known, hid, Option.isSome_some, if_true]
      rfl

theorem cfgChainDelete_refines {s : Configd T} (hs : Ready s) (q : MyMsgBuf T) :
    Refines (abs s.ram.toConfig) (.delete q.arg1 (entryNo q)) (cfgChainDelete s q) := by
  have hlock : cfgChainDelete s q =
      withRam s q (some (mibChainDelete s.ram q.arg1 (entryNo q))) :=
    unlessLocked_of_unlocked hs.unlocked q
  rw [hlock]
  rcases mibChainGet_cases s.ram q.arg1 (entryNo q) with
    ⟨i, v, hid, hv, -, hrec⟩ | ⟨hget, hrec⟩
  · obtain ⟨hn, -⟩ := List.getElem?_eq_some_iff.mp hv
    have hdel : mibChainDelete s.ram q.arg1 (entryNo q) =
        (true, Ram.setChain s.ram i ((s.ram.chains i).eraseIdx (entryNo q))) := by
      simp only [mibChainDelete, mibChainTotal, hid]
      exact if_neg (Nat.not_le_of_lt hn)
    rw [hdel]
    refine ⟨_, _, rfl, ⟨hs.unlocked, hs.memory⟩, ?_, ?_⟩
    · simp only [step, hrec]
      rw [abs_setChain hid, abs_of_some hid, List.eraseIdx_map]
    · simp only [step, hrec]
      rfl
  · have hdel : mibChainDelete s.ram q.arg1 (entryNo q) = (false, s.ram) := by
      cases hid : mibChainMib2tblId T q.arg1 with
      | none => simp only [mibChainDelete, hid]
      | some i =>
        simp only [mibChainGet, hid] at hget
        simp only [mibChainDelete, hid]
        split at hget
        · rename_i hle
          exact if_pos hle
        · cases hget
    rw [hdel]
    refine refines_refused hs ?_ q
    simp only [step, hrec]

theorem cfgChainClear_refines {s : Configd T} (hs : Ready s) (q : MyMsgBuf T) :
    Refines (abs s.ram.toConfig) (.clear q.arg1) (cfgChainClear s q) := by
  refine ⟨_, _, unlessLocked_of_unlocked hs.unlocked q, ?_, ?_, rfl⟩
  · refine ⟨hs.unlocked, ?_⟩
    unfold mibChainClear
    split
    · exact hs.memory
    · exact hs.memory
  · cases hid : mibChainMib2tblId T q.arg1 with
    | none => simp [step, known, mibChainClear, hid]
    | some i =>
      simp only [step, known, mibChainClear, hid, Option.isSome_some, if_true]
      exact abs_setChain hid []

theorem cfgChainUpdate_refines {s : Configd T} (hs : Ready s) (q : MyMsgBuf T) :
    Refines (abs s.ram.toConfig)
      (.update q.arg1 (u32OfInt q.arg2) (s.shm.1.take (recordSize T q.arg1)))
      (cfgChainUpdate s q) := by
  rw [cfgChainUpdate, unlessLocked_of_unlocked hs.unlocked]
  rcases mibChainGet_cases s.ram q.arg1 (u32OfInt q.arg2) with
    ⟨i, v, hid, hv, hget, hrec⟩ | ⟨hget, hrec⟩
  · obtain ⟨data, hread, hdata⟩ := shm_record s.shm hid
    obtain ⟨r', hwrite, hheap, habs⟩ := writeRecord_eq hid hv data.2
    simp only [hid, hget, hread, hwrite, Option.map_some]
    refine ⟨_, _, rfl, ⟨hs.unlocked, fun n => ?_⟩, ?_, ?_⟩
    · rw [hheap]
      exact hs.memory n
    · simp only [step, hrec]
      rw [habs, hdata]
    · simp only [step, hrec]
      rfl
  · have hfail : ∀ {q' : MyMsgBuf T}, Refines (abs s.ram.toConfig)
        (.update q.arg1 (u32OfInt q.arg2) (s.shm.1.take (recordSize T q.arg1)))
        (some (s, q'.reply msgFail)) :=
      refines_refused hs (by simp only [step, hrec]) _
    simp only [hget]
    split
    · exact hfail
    · exact hfail

theorem cfgChainGet_refines {s : Configd T} (hs : Ready s) (q : MyMsgBuf T) :
    Refines (abs s.ram.toConfig) (.get q.arg1 (entryNo q)) (cfgChainGet s q) := by
  rw [cfgChainGet]
  rcases mibChainGet_cases s.ram q.arg1 (entryNo q) with
    ⟨i, v, hid, hv, hget, hrec⟩ | ⟨hget, hrec⟩
  · have hle := recordSize_le T q.arg1
    rw [recordSize_eq hid] at hle
    obtain ⟨shm, hwrite, hshm⟩ : ∃ shm, s.shm.write 0 v.1 = some shm ∧
        shm.1 = v.1 ++ s.shm.1.drop v.1.length :=
      Block.write_after (show s.shm.1 = [] ++ s.shm.1 from rfl) rfl
        (by rw [s.shm.2, v.2]; exact hle)
    simp only [hid, hget, recordBytes_eq hv, withShm, hwrite, Option.map_some]
    refine ⟨_, _, rfl, ⟨hs.unlocked, hs.memory⟩, ?_, ?_⟩
    · simp only [step, hrec]
    · have hdata : shm.1.take (recordSize T q.arg1) = v.1 := by
        rw [hshm, recordSize_eq hid, List.take_left' v.2]
      simp only [step, hrec, ← hdata]
      rfl
  · have hfail : Refines (abs s.ram.toConfig) (.get q.arg1 (entryNo q))
        (some (s, q.reply msgFail)) :=
      refines_refused hs (by simp only [step, hrec]) q
    simp only [hget]
    split
    · exact hfail
    · exact hfail

/-- Exchanging two whole records of the same size. -/
theorem exchange_eq {r : Ram T} {id id' : Int} {i j a b : Nat}
    (hid : mibChainMib2tblId T id = some i) (hid' : mibChainMib2tblId T id' = some j)
    {v : Record T i} {w : Record T j} (hv : (r.chains i)[a]? = some v)
    (hw : (r.chains j)[b]? = some w)
    (hsize : (T.chainEntry j).perRecordSize = (T.chainEntry i).perRecordSize) :
    ∃ r', exchange r (T.chainEntry i).perRecordSize (i, a) (j, b) = some r' ∧
      r'.heap = r.heap ∧
      abs r'.toConfig = put (put (abs r.toConfig) id a w.1) id' b v.1 := by
  have hreadA := recordBytes_eq hv
  have hreadB : recordBytes r (j, b) (T.chainEntry i).perRecordSize = some w.1 := by
    rw [← hsize]
    exact recordBytes_eq hw
  obtain ⟨r₁, hwriteA, hheap₁, habs₁⟩ := writeRecord_eq hid hv (w.2.trans hsize)
  obtain ⟨w₁, hw₁⟩ : ∃ w₁, (r₁.chains j)[b]? = some w₁ := by
    have hlen : (abs r₁.toConfig id').length = (abs r.toConfig id').length := by
      rw [habs₁, put_length]
    rw [abs_of_some hid', abs_of_some hid', List.length_map, List.length_map] at hlen
    obtain ⟨hb, -⟩ := List.getElem?_eq_some_iff.mp hw
    exact ⟨_, List.getElem?_eq_getElem (hlen ▸ hb)⟩
  obtain ⟨r₂, hwriteB, hheap₂, habs₂⟩ := writeRecord_eq hid' hw₁ (v.2.trans hsize.symm)
  refine ⟨r₂, ?_, hheap₂.trans hheap₁, ?_⟩
  · simp only [exchange, hreadA, hreadB, hwriteA, hwriteB]
  · rw [habs₂, habs₁]

theorem cfgChainSwap_refines {s : Configd T} (hs : Ready s) {q : MyMsgBuf T}
    (hsize : known T (swapPartner T (atoi q.mtext.1)) = true →
      recordSize T (swapPartner T (atoi q.mtext.1)) = recordSize T (atoi q.mtext.1)) :
    Refines (abs s.ram.toConfig)
      (.swap (atoi q.mtext.1) (u32OfInt q.arg1) (swapPartner T (atoi q.mtext.1))
        (u32OfInt q.arg2)) (cfgChainSwap s q) := by
  rw [cfgChainSwap, unlessLocked_of_unlocked hs.unlocked]
  generalize atoi q.mtext.1 = id at hsize ⊢
  have hfail : step (known T) (abs s.ram.toConfig) (.swap id (u32OfInt q.arg1)
        (swapPartner T id) (u32OfInt q.arg2)) = (abs s.ram.toConfig, .refused) →
      Refines (abs s.ram.toConfig) (.swap id (u32OfInt q.arg1) (swapPartner T id)
        (u32OfInt q.arg2)) (some (s, q.reply msgFail)) :=
    fun hstep => refines_refused hs hstep q
  rcases mibChainGet_cases s.ram id (u32OfInt q.arg1) with
    ⟨i, v, hid, hv, hgetA, hrecA⟩ | ⟨hgetA, hrecA⟩
  · rcases mibChainGet_cases s.ram (swapPartner T id) (u32OfInt q.arg2) with
      ⟨j, w, hid', hw, hgetB, hrecB⟩ | ⟨hgetB, hrecB⟩
    · have hsizes : (T.chainEntry j).perRecordSize = (T.chainEntry i).perRecordSize := by
        rw [← recordSize_eq hid', ← recordSize_eq hid]
        exact hsize (by simp [known, hid'])
      obtain ⟨r', hexchange, hheap, habs⟩ :=
        @exchange_eq _ (s.ram.alloc 1) _ _ _ _ _ _ hid hid' v w hv hw hsizes
      simp only [hid, hgetA, hgetB, hs.memory 0, if_true, hexchange, Option.map_some]
      refine ⟨_, _, rfl, ⟨hs.unlocked, fun n => ?_⟩, ?_, ?_⟩
      · rw [hheap]
        exact hs.memory (n + 1)
      · simp only [step, hrecA, hrecB]
        exact habs
      · simp only [step, hrecA, hrecB]
        rfl
    · simp only [hid, hgetA, hgetB]
      exact hfail (by simp only [step, hrecA, hrecB])
  · simp only [hgetA]
    split
    · exact hfail (by simp only [step, hrecA])
    · exact hfail (by simp only [step, hrecA])

/-- A swap with a chain of smaller records reads behind the second record. -/
theorem cfgChainSwap_outside {s : Configd T} (hs : Ready s) {q : MyMsgBuf T} {i j : Nat}
    (hid : mibChainMib2tblId T (atoi q.mtext.1) = some i)
    (hid' : mibChainMib2tblId T (swapPartner T (atoi q.mtext.1)) = some j)
    (ha : u32OfInt q.arg1 < (s.ram.chains i).length)
    (hb : u32OfInt q.arg2 < (s.ram.chains j).length)
    (hsize : (T.chainEntry j).perRecordSize < (T.chainEntry i).perRecordSize) :
    cfgChainSwap s q = none := by
  have hgetA : mibChainGet s.ram (atoi q.mtext.1) (u32OfInt q.arg1) =
      some (i, u32OfInt q.arg1) := by
    simp [mibChainGet, mibChainTotal, hid, ha]
  have hgetB : mibChainGet s.ram (swapPartner T (atoi q.mtext.1)) (u32OfInt q.arg2) =
      some (j, u32OfInt q.arg2) := by
    simp [mibChainGet, mibChainTotal, hid', hb]
  have hreadA : recordBytes (s.ram.alloc 1) (i, u32OfInt q.arg1)
      (T.chainEntry i).perRecordSize = some (s.ram.chains i)[u32OfInt q.arg1].1 :=
    recordBytes_eq (List.getElem?_eq_getElem ha)
  have hreadB : recordBytes (s.ram.alloc 1) (j, u32OfInt q.arg2)
      (T.chainEntry i).perRecordSize = none := by
    have hv : ((s.ram.alloc 1).chains j)[u32OfInt q.arg2]? =
        some (s.ram.chains j)[u32OfInt q.arg2] := List.getElem?_eq_getElem hb
    simp only [recordBytes, hv, Option.map_eq_none_iff, Block.read_eq_none_iff]
    omega
  rw [cfgChainSwap, unlessLocked_of_unlocked hs.unlocked]
  simp only [hid, hgetA, hgetB, hs.memory 0, if_true, exchange, hreadA, hreadB, Option.map_none]

theorem cfgChainTotal_refines {s : Configd T} (hs : Ready s)
    (hspace : InAddressSpace s.ram.toConfig) {q : MyMsgBuf T} (h0 : q.arg1 ≠ 0) :
    Refines (abs s.ram.toConfig) (.total q.arg1) (cfgChainTotal s q) := by
  refine ⟨_, _, rfl, hs, rfl, ?_⟩
  have hlt : mibChainTotal s.ram q.arg1 < 2 ^ 31 := by
    unfold mibChainTotal
    split
    · decide
    · rename_i i hid
      exact count_lt hspace (mib2tblId_lt hid h0)
  have htotal : s32 (mibChainTotal s.ram q.arg1) = ((abs s.ram.toConfig q.arg1).length : Int) := by
    rw [abs_length, s32_eq hlt]
  simp only [step, ← htotal]
  rfl

/-- The requests the store is about. An id of zero is left out, and so is a swap across two
chains whose records differ in size. -/
structure ChainRequest (q : Request T) : Prop where
  isOp : ∃ op, opOf q = some op ∧ 0 ∉ op.keys
  sameSize : lookup q.msg.cmd = some .chainSwap →
    known T (swapPartner T (atoi q.msg.mtext.1)) = true →
    recordSize T (swapPartner T (atoi q.msg.mtext.1)) = recordSize T (atoi q.msg.mtext.1)

theorem serve_refines {s : Configd T} (hs : Ready s) (hspace : InAddressSpace s.ram.toConfig)
    {q : Request T} (hq : ChainRequest q) : ∃ op, opOf q = some op ∧
      Refines (abs s.ram.toConfig) op (serve s q) := by
  obtain ⟨⟨op, hop, hkey⟩, hsize⟩ := hq
  refine ⟨op, hop, ?_⟩
  have hs' : Ready (s.receive q) := ⟨hs.unlocked, hs.memory⟩
  unfold opOf at hop
  split at hop
  case h_1 hcmd =>
    cases hop
    rw [serve_of_lookup hcmd]
    exact cfgChainAdd_refines hs' q.msg.toClient
  case h_2 hcmd =>
    cases hop
    rw [serve_of_lookup hcmd]
    exact cfgChainDelete_refines hs' q.msg.toClient
  case h_3 hcmd =>
    cases hop
    rw [serve_of_lookup hcmd]
    exact cfgChainClear_refines hs' q.msg.toClient
  case h_4 hcmd =>
    cases hop
    rw [serve_of_lookup hcmd]
    exact cfgChainUpdate_refines hs' q.msg.toClient
  case h_5 hcmd =>
    cases hop
    rw [serve_of_lookup hcmd]
    exact @cfgChainSwap_refines _ _ hs' q.msg.toClient (hsize hcmd)
  case h_6 hcmd =>
    cases hop
    rw [serve_of_lookup hcmd]
    have h0 : q.msg.arg1 ≠ 0 := fun h0 => hkey (List.mem_singleton.mpr h0.symm)
    exact @cfgChainTotal_refines _ _ hs' hspace q.msg.toClient h0
  case h_7 hcmd =>
    cases hop
    rw [serve_of_lookup hcmd]
    exact cfgChainGet_refines hs' q.msg.toClient
  case h_8 => cases hop

/-- One round of the server is one round of the store. -/
theorem observe_refines {s : Configd T} (hs : Ready s) (hspace : InAddressSpace s.ram.toConfig)
    {q : Request T} (hq : ChainRequest q) :
    ∃ s', observe s q = some (s', (specStep (abs s.ram.toConfig) q).2) ∧ Ready s' ∧
      abs s'.ram.toConfig = (specStep (abs s.ram.toConfig) q).1 := by
  obtain ⟨op, hop, s', a, hserve, hs', habs, hanswer⟩ := serve_refines hs hspace hq
  refine ⟨s', ?_, hs', ?_⟩
  · simp only [observe, hserve, specStep, hop, Option.map_some, Option.bind_some, hanswer]
  · simp only [specStep, hop, habs]

/-- The list of an id that no request names stays. -/
theorem specRun_other {st st' : Int → List Bytes} {qs : List (Request T)}
    {as : List (Option (Answer Bytes))} {id : Int}
    (hqs : ∀ q ∈ qs, ∀ op, opOf q = some op → id ∉ op.keys)
    (hrun : run (fun st q => some (specStep st q)) st qs = some (st', as)) :
    st' id = st id := by
  have hstep : ∀ (t : Int → List Bytes) (q : Request T) t' a, t id = st id →
      (∀ op, opOf q = some op → id ∉ op.keys) → some (specStep t q) = some (t', a) →
      t' id = st id := by
    intro t q t' a ht hq h
    obtain rfl : (specStep t q).1 = t' := congrArg Prod.fst (Option.some.inj h)
    unfold specStep
    split
    · exact ht
    · rename_i op hop
      exact (step_other (hq op hop)).trans ht
  exact run_preserves hstep rfl (along_of_forall hqs st) hrun

/-- Every run of chain requests is a run of the abstract store, and the list of an id that
no request names stays. -/
theorem chainRequests_refine {s : Configd T} (hs : Ready s) {qs : List (Request T)}
    (hqs : ∀ q ∈ qs, ChainRequest q)
    (hspace : Along observe (fun s _ => InAddressSpace s.ram.toConfig) s qs) :
    ∃ s' as, run observe s qs = some (s', as) ∧
      run (fun st q => some (specStep st q)) (abs s.ram.toConfig) qs =
        some (abs s'.ram.toConfig, as) ∧
      ∀ id, (∀ q ∈ qs, ∀ op, opOf q = some op → id ∉ op.keys) →
        abs s'.ram.toConfig id = abs s.ram.toConfig id := by
  have hstep : ∀ (s : Configd T) st (q : Request T), Ready s ∧ abs s.ram.toConfig = st →
      InAddressSpace s.ram.toConfig ∧ ChainRequest q →
      ∃ s', observe s q = some (s', (specStep st q).2) ∧
        (Ready s' ∧ abs s'.ram.toConfig = (specStep st q).1) := by
    rintro s _ q ⟨hs, rfl⟩ ⟨hspace, hq⟩
    exact observe_refines hs hspace hq
  obtain ⟨s', as, hrun, hspec, -, hrel⟩ :=
    run_simulates hstep ⟨hs, rfl⟩ (hspace.and (along_of_forall hqs s))
  rw [← hrel] at hspec
  exact ⟨s', as, hrun, hspec, fun id hid => specRun_other hid hspec⟩

/-- Swaps the first records of `WLAN_AC_TBL`. -/
def swapRequest : Request sampleTables :=
  .ofMsg { emptyMsg sampleTables with
    cmd := 30, mtext := ⟨[51, 53, 48, 52] ++ List.replicate 4092 0, by
      rw [List.length_append, List.length_replicate]; rfl⟩ }

/-- One record in `WLAN_AC_TBL` and one in `WLAN1_AC_TBL`. -/
def twoRadios : Configd sampleTables :=
  boot { emptyRam sampleTables with
    chains := Function.update (Function.update (emptyRam sampleTables).chains 1
      [⟨List.replicate 7 1, rfl⟩]) 2 [⟨List.replicate 7 2, rfl⟩] } sampleFlash

/-- A request whose record is sevens in the shared memory. -/
def sevensRequest (cmd arg1 arg2 : Int) : Request sampleTables :=
  { Request.ofMsg { emptyMsg sampleTables with cmd := cmd, arg1 := arg1, arg2 := arg2 } with
    shm := ⟨List.replicate 7 7 ++ List.replicate 65529 0, by
      rw [List.length_append, List.length_replicate, List.length_replicate]; rfl⟩ }

/-- A record is added to `WLAN_AC_TBL` and the first is replaced, the first ones of both tables are
exchanged, and the first of `WLAN1_AC_TBL` is deleted. -/
def sampleRequests : List (Request sampleTables) :=
  [sevensRequest 23 3504 0, sevensRequest 26 3504 0, swapRequest, sevensRequest 24 3505 0]

theorem chainRequests_refine_sample :
    ∃ s' as, run observe twoRadios sampleRequests = some (s', as) ∧
      run (fun st q => some (specStep st q)) (abs twoRadios.ram.toConfig) sampleRequests =
        some (abs s'.ram.toConfig, as) ∧
      ∀ id, (∀ q ∈ sampleRequests, ∀ op, opOf q = some op → id ∉ op.keys) →
        abs s'.ram.toConfig id = abs twoRadios.ram.toConfig id := by
  refine chainRequests_refine ⟨rfl, fun _ => rfl⟩ (fun q hq => ?_) (by decide +kernel)
  simp only [sampleRequests, List.mem_cons, List.not_mem_nil, or_false] at hq
  rcases hq with rfl | rfl | rfl | rfl
  · exact ⟨⟨_, rfl, by decide⟩, fun h => absurd h (by decide)⟩
  · exact ⟨⟨_, rfl, by decide⟩, fun h => absurd h (by decide)⟩
  · exact ⟨⟨_, rfl, by decide⟩, fun _ _ => by decide⟩
  · exact ⟨⟨_, rfl, by decide⟩, fun h => absurd h (by decide)⟩

def totalRequest (id : Int) : Request sampleTables :=
  .ofMsg { emptyMsg sampleTables with cmd := 21, arg1 := id }

/-- Adds a record without bytes to the sentinel. -/
def addZeroRequest : Request sampleTables := .ofMsg { emptyMsg sampleTables with cmd := 23 }

/-- The total of an unknown id and an added record of id 0 are successes, and a swap in one
chain changes the next. -/
theorem chainRequests_differ :
    (∃ s' a, serve twoRadios (totalRequest 5) = some (s', a) ∧
      known sampleTables 5 = false ∧ a.request = msgSucc) ∧
    (∃ s' a, serve twoRadios addZeroRequest = some (s', a) ∧ a.request = msgSucc) ∧
    ∃ s' a, serve twoRadios swapRequest = some (s', a) ∧ atoi swapRequest.msg.mtext.1 = 3504 ∧
      abs s'.ram.toConfig 3505 ≠ abs twoRadios.ram.toConfig 3505 := by
  refine ⟨⟨_, _, rfl, by decide, rfl⟩, ⟨_, _, rfl, rfl⟩, _, _, rfl, by decide, by decide⟩

end ChainStore
