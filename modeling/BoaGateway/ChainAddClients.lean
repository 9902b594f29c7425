import BoaGateway.ChainStore

/-!
# Clients that add records

`mib_chain_add` of `sysconfig.c` asks the server for the description of the chain
and for its length, decides whether there is room, and only then sends the record.
The server appends whatever it gets. Between the requests of one client those of
others are served, and the room and the position may be gone by then.
-/

namespace ChainAddClients

open ByteBlocks RequestRuns MibTypes MibChain MibContent MsgParser ChainStore

variable {T : Tables}

/-- A call of `mib_chain_add`; `numWlan` and `wlanIdx` are there in a build with WLAN. -/
structure Args where
  id : Int
  ptr : Bytes
  wlan : Option (Nat × Int)

/-- `wlan_mibchain_id_reorder`, where -1 is an error. -/
def wlanMibchainIdReorder (numWlan : Nat) (wlanIdx id : Int) : Int :=
  if dualWlanChainStartId < id ∧ id < dualWlanChainEndId then
    if 0 ≤ wlanIdx ∧ wlanIdx < numWlan then id + wlanIdx else -1
  else id

/-- The id that the requests for the length and for the record carry; `none` is an error. -/
def Args.chainId (a : Args) : Option Int :=
  match a.wlan with
  | none => some a.id
  | some (numWlan, wlanIdx) =>
    let id := wlanMibchainIdReorder numWlan wlanIdx a.id
    if id = -1 then none else some id

/-- What a call does next. -/
inductive Call where
  | info (a : Args)
  | total (a : Args) (id : Int) (info : ChainRecordTableEntry)
  /-- `seen` is no variable of the client but the length of the chain at its request. -/
  | add (a : Args) (id : Int) (info : ChainRecordTableEntry) (ret : Int) (seen : Nat)

/-- A call goes on, or it returns. -/
inductive Next where
  | goOn (call : Call)
  | ret (n : Int)

def afterInfo (a : Args) (reply : MyMsgBuf T) : Option Next :=
  if reply.request = msgSucc then
    match reply.info, a.chainId with
    | some (.chain info), some id => some (.goOn (.total a id info))
    | some (.chain _), none => some (.ret 0)
    | _, _ => none
  else some (.ret 0)

def afterTotal (a : Args) (id : Int) (info : ChainRecordTableEntry) (seen : Nat)
    (reply : MyMsgBuf T) : Next :=
  let size := if reply.request = msgSucc then reply.arg1 else 0
  if info.tableSize ≠ -1 ∧ info.tableSize ≤ size then .ret (-1)
  else if T.shmSize ≤ info.perRecordSize then .ret 0
  else .goOn (.add a id info (size + 1) seen)

def afterAdd (ret : Int) (reply : MyMsgBuf T) : Next :=
  .ret (if reply.request = msgSucc then ret else 0)

/-- The message that a client sends; what else lies in it comes from its stack. -/
def request (c : Command) (id : Int) (q : Request T) : Request T :=
  { q with msg := { q.msg with cmd := c.cmd, arg1 := id } }

/-- `put_shm_data` of `size` bytes. -/
def putShmData (shm : Block T.shmSize) (ptr : Bytes) (size : Nat) : Option (Block T.shmSize) :=
  match (Block.ofBytes ptr).read 0 size with
  | none => none
  | some data => shm.write 0 data.1

/-- The server and the call that every client is in. -/
structure System (T : Tables) where
  server : Configd T
  calls : Nat → Option Call

inductive Event (T : Tables) where
  | call (client : Nat) (a : Args)
  /-- The next request of the client is served. -/
  | next (client : Nat) (q : Request T)
  /-- A `CMD_CHAIN_DELETE` of some client is served. -/
  | delete (q : Request T)

/-- What a call returns, and its chain before and after its last request. -/
structure Return where
  ret : Int
  before : List Bytes
  after : List Bytes

def chain (s : Configd T) (id : Int) : List Bytes := abs s.ram.toConfig id

/-- One request of a client is answered. -/
def answered (s : System T) (client : Nat) (id : Int) (server : Configd T) :
    Next → System T × Option Return
  | .goOn call => ({ server := server, calls := Function.update s.calls client (some call) }, none)
  | .ret n =>
    ({ server := server, calls := Function.update s.calls client none },
      some { ret := n, before := chain s.server id, after := chain server id })

def step (s : System T) : Event T → Option (System T × Option Return)
  | .call client a =>
    match s.calls client with
    | none => some ({ s with calls := Function.update s.calls client (some (.info a)) }, none)
    | some _ => none
  | .next client q =>
    match s.calls client with
    | none => none
    | some (.info a) =>
      match serve s.server (request .chainInfoId a.id q) with
      | none => none
      | some (server, reply) => (afterInfo a reply).map (answered s client a.id server)
    | some (.total a id info) =>
      match serve s.server (request .chainTotal id q) with
      | none => none
      | some (server, reply) =>
        some (answered s client id server
          (afterTotal a id info (chain s.server id).length reply))
    | some (.add a id info ret _) =>
      match putShmData q.shm a.ptr info.perRecordSize with
      | none => none
      | some shm =>
        match serve s.server (request .chainAdd id { q with shm := shm }) with
        | none => none
        | some (server, reply) => some (answered s client id server (afterAdd ret reply))
  | .delete q =>
    if lookup q.msg.cmd = some .chainDelete then
      (serve s.server q).map fun res => ({ s with server := res.1 }, none)
    else none

/-- `table_size` of a chain; -1 means no limit. -/
def tableSize (T : Tables) (id : Int) : Int :=
  match mibChainMib2tblId T id with
  | none => -1
  | some i => (T.chainEntry i).tableSize

def Bounded (s : Configd T) (id : Int) : Prop :=
  tableSize T id ≠ -1 → ((chain s id).length : Int) ≤ tableSize T id

theorem lookup_request (c : Command) (id : Int) (q : Request T) :
    lookup (request c id q).msg.cmd = some c := lookup_cmd c

theorem serve_info {s s' : Configd T} {id : Int} {q : Request T} {reply : MyMsgBuf T}
    (h : serve s (request .chainInfoId id q) = some (s', reply)) :
    s'.ram = s.ram ∧ ∀ info, reply.request = msgSucc → reply.info = some (.chain info) →
      info.tableSize = tableSize T id := by
  rw [serve_of_lookup (lookup_request _ id q)] at h
  change cfgChainInfoId _ _ = _ at h
  unfold cfgChainInfoId at h
  split at h
  · cases h
    refine ⟨rfl, fun info hsucc _ => ?_⟩
    cases hsucc
  · rename_i i hid
    cases h
    refine ⟨rfl, ?_⟩
    rintro info - ⟨⟩
    have hid' : mibChainMib2tblId T id = some i := hid
    simp only [tableSize, hid']

theorem serve_total {s s' : Configd T} {id : Int} {q : Request T} {reply : MyMsgBuf T}
    (h : serve s (request .chainTotal id q) = some (s', reply)) :
    s'.ram = s.ram ∧ reply.request = msgSucc ∧ reply.arg1 = s32 (chain s id).length := by
  rw [serve_of_lookup (lookup_request _ id q)] at h
  cases h
  refine ⟨rfl, rfl, ?_⟩
  rw [chain, abs_length]
  rfl

/-- A record is appended when the settings are not locked and there is memory for it. -/
theorem serve_add {s s' : Configd T} {id : Int} {q : Request T} {reply : MyMsgBuf T}
    (h : serve s (request .chainAdd id q) = some (s', reply)) :
    (reply.request = msgSucc ∧ s.mibLock = false ∧ s.ram.heap 0 = true ∧ s.ram.heap 1 = true ∧
      ∃ x, abs s'.ram.toConfig = Function.update (abs s.ram.toConfig) id (chain s id ++ [x])) ∨
    (reply.request ≠ msgSucc ∧ abs s'.ram.toConfig = abs s.ram.toConfig) := by
  rw [serve_of_lookup (lookup_request _ id q)] at h
  change cfgChainAdd _ _ = _ at h
  unfold cfgChainAdd unlessLocked at h
  split at h
  · cases h
    exact Or.inr ⟨show msgMibLocked ≠ msgSucc by decide, rfl⟩
  rename_i hlock
  obtain ⟨⟨ok, r⟩, hadd, he⟩ := Option.map_eq_some_iff.mp h
  cases he
  cases hid : mibChainMib2tblId T id with
  | none =>
    have hr : (false, s.ram) = (ok, r) := by
      have hfail := hadd
      change mibChainAdd s.ram id _ = _ at hfail
      simp only [mibChainAdd, hid] at hfail
      exact Option.some.inj hfail
    cases hr
    exact Or.inr ⟨show msgFail ≠ msgSucc by decide, rfl⟩
  | some i =>
    rcases mibChainAdd_cases hid hadd with ⟨rfl, h0, h1, v, -, rfl⟩ | ⟨rfl, -, n, rfl⟩
    · refine Or.inl ⟨rfl, by simpa using hlock, h0, h1, v.1, ?_⟩
      rw [abs_setChain hid, chain, abs_of_some hid, List.map_append]
      rfl
    · exact Or.inr ⟨show msgFail ≠ msgSucc by decide, rfl⟩

/-- Deleting makes no chain longer. -/
theorem serve_delete {s s' : Configd T} {q : Request T} {a : MyMsgBuf T}
    (hcmd : lookup q.msg.cmd = some .chainDelete) (h : serve s q = some (s', a)) (id : Int) :
    (chain s' id).length ≤ (chain s id).length := by
  rw [serve_of_lookup hcmd] at h
  change cfgChainDelete _ _ = _ at h
  unfold cfgChainDelete unlessLocked at h
  split at h
  · cases h
    exact Nat.le_refl _
  obtain ⟨⟨ok, r⟩, hdel, he⟩ := Option.map_eq_some_iff.mp h
  cases he
  have hr := Option.some.inj hdel
  unfold mibChainDelete at hr
  split at hr
  · cases hr
    exact Nat.le_refl _
  · rename_i i hid
    split at hr
    · cases hr
      exact Nat.le_refl _
    · cases hr
      unfold chain
      dsimp only
      rw [abs_setChain hid]
      by_cases hk : id = q.msg.toClient.arg1
      · rw [hk, Function.update_self, abs_of_some hid, List.length_map, List.length_map]
        exact List.length_eraseIdx_le _ _
      · rw [Function.update_of_ne hk]
        exact Nat.le_refl _

/-- What a client remembers is right. -/
def CallOk (T : Tables) : Call → Prop
  | .info a => ∀ id, a.chainId = some id → tableSize T a.id = tableSize T id
  | .total _ id info => info.tableSize = tableSize T id
  | .add _ id info ret seen =>
    info.tableSize = tableSize T id ∧ ret = seen + 1 ∧
      (info.tableSize ≠ -1 → (seen : Int) < info.tableSize)

structure Inv (s : System T) : Prop where
  calls : ∀ client call, s.calls client = some call → CallOk T call
  bounded : ∀ id, Bounded s.server id

/-- A client that names a radio finds there the limit of the id it was called with, and no
record is appended to a chain whose length has changed since the client asked for it. -/
def Undisturbed (s : System T) : Event T → Prop
  | .call _ a => ∀ id, a.chainId = some id → tableSize T a.id = tableSize T id
  | .next client _ => ∀ a id info ret seen,
    s.calls client = some (.add a id info ret seen) → s.server.mibLock = false →
      s.server.ram.heap 0 = true → s.server.ram.heap 1 = true →
      (chain s.server id).length = seen
  | .delete _ => True

/-- A positive result is the position of the record that the call has appended. -/
def ReturnsPosition (o : Option Return) : Prop :=
  ∀ r, o = some r → 0 < r.ret →
    r.ret = r.after.length ∧ ∃ x, r.after = r.before ++ [x]

theorem chain_short {s : Configd T} (hspace : InAddressSpace s.ram.toConfig)
    (hbound : ∀ id, Bounded s id) (id : Int) : (chain s id).length < 2 ^ 31 := by
  rw [chain, abs_length]
  unfold mibChainTotal
  split
  · decide
  rename_i i hid
  rcases mib2tblId_eq_some_iff.mp hid with ⟨hi, -⟩ | ⟨rfl, rfl⟩
  · exact count_lt hspace hi
  · -- nothing is ever appended to the sentinel, whose limit is zero
    have hsize : tableSize T 0 = 0 := by
      simp only [tableSize, hid, chainEntry_of_ge (Nat.le_refl _)]
      rfl
    have hle := hbound 0 (by rw [hsize]; decide)
    rw [hsize, chain, abs_of_some hid, List.length_map] at hle
    omega

theorem bounded_of_ram {s s' : Configd T} (h : s'.ram = s.ram) {id : Int}
    (hs : Bounded s id) : Bounded s' id := by
  unfold Bounded chain
  rw [h]
  exact hs

theorem calls_update {calls : Nat → Option Call} {client c : Nat} {v : Option Call} {x : Call}
    (h : Function.update calls client v c = some x) : v = some x ∨ calls c = some x := by
  by_cases hc : c = client
  · subst hc
    rw [Function.update_self] at h
    exact Or.inl h
  · rw [Function.update_of_ne hc] at h
    exact Or.inr h

theorem inv_answered {s s' : System T} (hs : Inv s) {client : Nat} {id : Int}
    {server : Configd T} (hserver : ∀ id, Bounded server id) {next : Next}
    (hnext : ∀ call, next = .goOn call → CallOk T call) {o : Option Return}
    (h : answered s client id server next = (s', o)) : Inv s' := by
  cases next with
  | goOn call =>
    cases h
    refine ⟨fun c x hx => ?_, hserver⟩
    rcases calls_update hx with hnew | hold
    · cases hnew
      exact hnext call rfl
    · exact hs.calls c x hold
  | ret n =>
    cases h
    refine ⟨fun c x hx => ?_, hserver⟩
    rcases calls_update hx with hnew | hold
    · cases hnew
    · exact hs.calls c x hold

/-- Before the record is sent, a call returns nothing positive. -/
theorem answered_position {s s' : System T} {client : Nat} {id : Int} {server : Configd T}
    {next : Next} (hnext : ∀ n, next = .ret n → n ≤ 0) {o : Option Return}
    (h : answered s client id server next = (s', o)) : ReturnsPosition o := by
  cases next with
  | goOn call =>
    cases h
    rintro r ⟨⟩
  | ret n =>
    cases h
    rintro r ⟨⟩ hpos
    have hle := hnext n rfl
    dsimp only at hpos
    omega

theorem afterInfo_ok {s s' : Configd T} {a : Args} {q : Request T} {reply : MyMsgBuf T}
    (ha : CallOk T (.info a)) (h : serve s (request .chainInfoId a.id q) = some (s', reply))
    {next : Next} (hnext : afterInfo a reply = some next) :
    (∀ call, next = .goOn call → CallOk T call) ∧ ∀ n, next = .ret n → n ≤ 0 := by
  obtain ⟨-, hinfo⟩ := serve_info h
  unfold afterInfo at hnext
  split at hnext
  · rename_i hsucc
    split at hnext
    · rename_i info id hreply hid
      cases hnext
      refine ⟨?_, ?_⟩
      · rintro call ⟨⟩
        exact (hinfo info hsucc hreply).trans (ha id hid)
      · rintro n ⟨⟩
    · cases hnext
      refine ⟨?_, ?_⟩
      · rintro call ⟨⟩
      · rintro n ⟨⟩
        exact Int.le_refl 0
    · cases hnext
  · cases hnext
    refine ⟨?_, ?_⟩
    · rintro call ⟨⟩
    · rintro n ⟨⟩
      exact Int.le_refl 0

theorem afterTotal_ok {s s' : Configd T} {a : Args} {id : Int} {info : ChainRecordTableEntry}
    {q : Request T} {reply : MyMsgBuf T} (hinfo : CallOk T (.total a id info))
    (hshort : (chain s id).length < 2 ^ 31)
    (h : serve s (request .chainTotal id q) = some (s', reply)) :
    (∀ call, afterTotal a id info (chain s id).length reply = .goOn call → CallOk T call) ∧
      ∀ n, afterTotal a id info (chain s id).length reply = .ret n → n ≤ 0 := by
  obtain ⟨-, hsucc, htotal⟩ := serve_total h
  rw [s32_eq hshort] at htotal
  unfold afterTotal
  dsimp only
  rw [if_pos hsucc, htotal]
  split
  · refine ⟨?_, ?_⟩
    · rintro call ⟨⟩
    · rintro n ⟨⟩
      decide
  rename_i hroom
  split
  · refine ⟨?_, ?_⟩
    · rintro call ⟨⟩
    · rintro n ⟨⟩
      exact Int.le_refl 0
  · refine ⟨?_, ?_⟩
    · rintro call ⟨⟩
      refine ⟨hinfo, rfl, fun hlimit => ?_⟩
      have hlt : ¬ info.tableSize ≤ ((chain s id).length : Int) := fun hle => hroom ⟨hlimit, hle⟩
      omega
    · rintro n ⟨⟩

/-- The record of an undisturbed client goes where it expects it. -/
theorem afterAdd_ok {s : System T} (hs : Inv s) {client : Nat} {a : Args} {id : Int}
    {info : ChainRecordTableEntry} {ret : Int} {seen : Nat}
    (hcall : s.calls client = some (.add a id info ret seen))
    (hund : s.server.mibLock = false → s.server.ram.heap 0 = true →
      s.server.ram.heap 1 = true → (chain s.server id).length = seen)
    {q : Request T} {server : Configd T} {reply : MyMsgBuf T}
    (h : serve s.server (request .chainAdd id q) = some (server, reply)) {s' : System T}
    {o : Option Return} (ho : answered s client id server (afterAdd ret reply) = (s', o)) :
    (∀ id, Bounded server id) ∧ ReturnsPosition o := by
  obtain ⟨hlimit, hret, hroom⟩ := hs.calls client _ hcall
  rcases serve_add h with ⟨hsucc, hlock, h0, h1, x, habs⟩ | ⟨hfail, habs⟩
  · have hlen := hund hlock h0 h1
    have hafter : chain server id = chain s.server id ++ [x] := by
      rw [chain, habs, Function.update_self]
    refine ⟨fun k hk => ?_, ?_⟩
    · by_cases hid : k = id
      · subst hid
        rw [hafter, List.length_append, List.length_singleton]
        have := hroom (by rw [hlimit]; exact hk)
        omega
      · have hsame : chain server k = chain s.server k := by
          rw [chain, habs, Function.update_of_ne hid]
          rfl
        rw [hsame]
        exact hs.bounded k hk
    · rw [afterAdd, if_pos hsucc] at ho
      cases ho
      rintro r ⟨⟩ -
      refine ⟨?_, x, hafter⟩
      dsimp only
      rw [hafter, List.length_append, hlen, hret]
      rfl
  · refine ⟨fun k hk => ?_, ?_⟩
    · rw [chain, habs]
      exact hs.bounded k hk
    · refine answered_position ?_ ho
      rintro n hn
      rw [afterAdd, if_neg hfail] at hn
      cases hn
      exact Int.le_refl 0

theorem step_ok {s s' : System T} {e : Event T} {o : Option Return} (hs : Inv s)
    (hspace : InAddressSpace s.server.ram.toConfig) (hund : Undisturbed s e)
    (h : step s e = some (s', o)) : Inv s' ∧ ReturnsPosition o := by
  have hquiet : ∀ {o : Option Return}, o = none → ReturnsPosition o := by
    rintro o rfl r ⟨⟩
  cases e with
  | call client a =>
    simp only [step] at h
    split at h
    · cases h
      refine ⟨⟨fun c x hx => ?_, hs.bounded⟩, hquiet rfl⟩
      rcases calls_update hx with hnew | hold
      · cases hnew
        exact hund
      · exact hs.calls c x hold
    · cases h
  | delete q =>
    simp only [step] at h
    split at h
    · rename_i hcmd
      obtain ⟨⟨server, reply⟩, hserve, he⟩ := Option.map_eq_some_iff.mp h
      cases he
      refine ⟨⟨hs.calls, fun id hid => ?_⟩, hquiet rfl⟩
      have hle := serve_delete hcmd hserve id
      have hold := hs.bounded id hid
      dsimp only
      omega
    · cases h
  | next client q =>
    simp only [step] at h
    split at h
    · cases h
    · rename_i a hcall
      split at h
      · cases h
      · rename_i server reply hserve
        obtain ⟨next, hnext, hout⟩ := Option.map_eq_some_iff.mp h
        obtain ⟨hgo, hret⟩ := afterInfo_ok (hs.calls client _ hcall) hserve hnext
        have hram := (serve_info hserve).1
        exact ⟨inv_answered hs (fun id => bounded_of_ram hram (hs.bounded id)) hgo hout,
          answered_position hret hout⟩
    · rename_i a id info hcall
      split at h
      · cases h
      · rename_i server reply hserve
        have hout := Option.some.inj h
        obtain ⟨hgo, hret⟩ := afterTotal_ok (hs.calls client _ hcall)
          (chain_short hspace hs.bounded id) hserve
        have hram := (serve_total hserve).1
        exact ⟨inv_answered hs (fun id => bounded_of_ram hram (hs.bounded id)) hgo hout,
          answered_position hret hout⟩
    · rename_i a id info ret seen hcall
      split at h
      · cases h
      split at h
      · cases h
      · rename_i server reply hserve
        have hout := Option.some.inj h
        obtain ⟨hbound, hpos⟩ := afterAdd_ok hs hcall (hund a id info ret seen hcall) hserve hout
        refine ⟨inv_answered hs hbound ?_ hout, hpos⟩
        rintro call ⟨⟩

/-- In every run of undisturbed clients no chain grows beyond its limit, and every positive
result is a position. -/
theorem adds_run {s s' : System T} {es : List (Event T)} {os : List (Option Return)}
    (hidle : ∀ client, s.calls client = none) (hbound : ∀ id, Bounded s.server id)
    (hspace : Along step (fun s _ => InAddressSpace s.server.ram.toConfig) s es)
    (hund : Along step Undisturbed s es) (hrun : run step s es = some (s', os)) :
    (∀ id, Bounded s'.server id) ∧ ∀ o ∈ os, ReturnsPosition o := by
  have hinit : Inv s := by
    refine ⟨fun client call hcall => ?_, hbound⟩
    rw [hidle client] at hcall
    cases hcall
  have hstep : ∀ (s : System T) (e : Event T) (t : System T) (o : Option Return), Inv s →
      InAddressSpace s.server.ram.toConfig ∧ Undisturbed s e → step s e = some (t, o) →
        Inv t ∧ ReturnsPosition o :=
    fun s e t o hs hC h => step_ok hs hC.1 hC.2 h
  have hboth := hspace.and hund
  exact ⟨(run_preserves (fun s e t o hs hC h => (hstep s e t o hs hC h).1) hinit hboth hrun).bounded,
    run_answers_mem hstep hinit hboth hrun⟩

/-- Seven bytes for `WLAN_AC_TBL`. -/
def sampleArgs : Args := { id := 3504, ptr := List.replicate 7 1, wlan := none }

def sampleRequest : Request sampleTables := .ofMsg (emptyMsg _)

/-- No client is in a call, and `WLAN_AC_TBL` holds some records. -/
def withRecords (n : Nat) : System sampleTables where
  server := MsgParser.boot { emptyRam sampleTables with
    chains := Function.update (emptyRam sampleTables).chains 1
      (List.replicate n ⟨List.replicate 7 0, rfl⟩) } sampleFlash
  calls := fun _ => none

theorem withRecords_bounded {n : Nat} (hn : n ≤ 32) (id : Int) :
    Bounded (withRecords n).server id := by
  intro hlimit
  cases hid : mibChainMib2tblId sampleTables id with
  | none => simp [tableSize, hid] at hlimit
  | some i =>
    have hsize : tableSize sampleTables id = (sampleTables.chainEntry i).tableSize := by
      simp only [tableSize, hid]
    rw [hsize] at hlimit ⊢
    rw [chain, abs_of_some hid, List.length_map]
    by_cases hi : i = 1
    · subst hi
      change ((List.replicate n _).length : Int) ≤ 32
      rw [List.length_replicate]
      omega
    · have hempty : (withRecords n).server.ram.chains i = [] := Function.update_of_ne hi _ _
      rw [hempty]
      rcases mib2tblId_eq_some_iff.mp hid with ⟨hlt, -⟩ | ⟨rfl, -⟩
      · have hsizes : ∀ e ∈ sampleChainTable, e.tableSize = -1 ∨ 0 ≤ e.tableSize := by decide
        exact (hsizes _ (chainEntry_mem hlt)).resolve_left hlimit
      · exact Int.le_refl 0

theorem adds_run_one :
    ∃ s' os, run step (withRecords 0) [.call 0 sampleArgs, .next 0 sampleRequest,
        .next 0 sampleRequest, .next 0 sampleRequest] = some (s', os) ∧
      (∀ id, Bounded s'.server id) ∧ ∀ o ∈ os, ReturnsPosition o := by
  have hsome : (run step (withRecords 0) [.call 0 sampleArgs, .next 0 sampleRequest,
      .next 0 sampleRequest, .next 0 sampleRequest]).isSome = true := rfl
  obtain ⟨⟨s', os⟩, hrun⟩ := Option.isSome_iff_exists.mp hsome
  refine ⟨s', os, hrun, adds_run (fun _ => rfl) (withRecords_bounded (by decide)) ?_ ?_ hrun⟩
  · refine ⟨by change memoryUsed _ < 2 ^ 32; decide, ?_⟩
    rintro s o ⟨⟩
    refine ⟨by change memoryUsed _ < 2 ^ 32; decide, ?_⟩
    rintro s o ⟨⟩
    refine ⟨by change memoryUsed _ < 2 ^ 32; decide, ?_⟩
    rintro s o ⟨⟩
    refine ⟨by change memoryUsed _ < 2 ^ 32; decide, ?_⟩
    exact fun _ _ _ => trivial
  · refine ⟨?_, ?_⟩
    · rintro id ⟨⟩
      rfl
    rintro s o ⟨⟩
    refine ⟨?_, ?_⟩
    · rintro a id info ret seen ⟨⟩
    rintro s o ⟨⟩
    refine ⟨?_, ?_⟩
    · rintro a id info ret seen ⟨⟩
    rintro s o ⟨⟩
    refine ⟨?_, fun _ _ _ => trivial⟩
    rintro a id info ret seen ⟨⟩ - - -
    rfl

/-- Two clients that ask for the length before either of them adds its record. -/
def racingEvents : List (Event sampleTables) :=
  [.call 0 sampleArgs, .call 1 sampleArgs, .next 0 sampleRequest, .next 1 sampleRequest,
   .next 0 sampleRequest, .next 1 sampleRequest, .next 0 sampleRequest, .next 1 sampleRequest]

/-- Both find room for the same record: the chain grows beyond its limit, and the second
client gets the position of the first. -/
theorem add_overflows :
    (∀ id, Bounded (withRecords 31).server id) ∧
      ∃ s' os, run step (withRecords 31) racingEvents = some (s', os) ∧
        ¬ Bounded s'.server 3504 ∧ ∃ o ∈ os, ¬ ReturnsPosition o := by
  refine ⟨withRecords_bounded (by decide), ?_⟩
  have hseen : (run step (withRecords 31) racingEvents).map (fun res =>
      ((chain res.1.server 3504).length,
        res.2.map (Option.map fun r => (r.ret, r.after.length)))) =
      some (33, [none, none, none, none, none, none, some (32, 32), some (32, 33)]) := rfl
  obtain ⟨⟨s', os⟩, hrun, hfinal⟩ := Option.map_eq_some_iff.mp hseen
  obtain ⟨hlen, hos⟩ := Prod.mk.inj hfinal
  refine ⟨s', os, hrun, fun hbound => ?_, ?_⟩
  · have hlimit := hbound (by decide)
    dsimp only at hlen
    rw [hlen] at hlimit
    exact absurd hlimit (by decide)
  · have hmem : some ((32 : Int), 33) ∈ os.map (Option.map fun r => (r.ret, r.after.length)) := by
      dsimp only at hos
      rw [hos]
      decide
    obtain ⟨o, ho, he⟩ := List.mem_map.mp hmem
    obtain ⟨r, rfl, hr⟩ := Option.map_eq_some_iff.mp he
    obtain ⟨hret, hafter⟩ := Prod.mk.inj hr
    refine ⟨_, ho, fun hpos => ?_⟩
    have heq := (hpos r rfl (by rw [hret]; decide)).1
    rw [hret, hafter] at heq
    exact absurd heq (by decide)

end ChainAddClients
