import BoaGateway.ShmClients

/-!
# Whose bytes go through the shared memory

Nothing in a request says whose bytes lie in the shared memory when the server gets to it.
As long as the lock is held from before the first access until the server has processed
the request and the result is copied, they are those of the client that sent it.
-/

namespace ShmExchange

open ByteBlocks RequestRuns MibTypes MibChain MibContent MibValue MsgParser MsgQueue
open ChainStore ReplyCleanup ReplyMatching ShmClients
open ClientSystem (Client Phase Received setClient_self setClient_other step_eq_some)
open ChainAddClients (Args putShmData chain)

variable {T : Tables}

theorem digit_byte : ∀ d < 10, digitValue (digit d) = some d ∧ isSpace (digit d) = false ∧
    digit d ≠ 0 ∧ digit d ≠ 45 ∧ digit d ≠ 43 := by
  decide

theorem readDigits_map (ds : List Nat) (hds : ∀ d ∈ ds, d < 10) (acc : Nat) :
    readDigits 10 acc (ds.map digit) = ds.foldl (fun n d => n * 10 + d) acc := by
  induction ds generalizing acc with
  | nil => rfl
  | cons d ds ih =>
    have hd : d < 10 := hds d (by simp)
    rw [List.map_cons, readDigits, (digit_byte d hd).1]
    dsimp only
    rw [if_pos hd, ih (fun e he => hds e (by simp [he])), List.foldl_cons]

/-- The digits of a number in the order in which they are written. -/
theorem decimal_digits (n : Nat) : ∃ ds : List Nat, decimal n = ds.map digit ∧ ds ≠ [] ∧
    (∀ d ∈ ds, d < 10) ∧ ds.foldl (fun n d => n * 10 + d) 0 = n := by
  unfold decimal
  split
  · rename_i hzero
    subst hzero
    exact ⟨[0], rfl, by simp, by simp, rfl⟩
  · rename_i hpos
    refine ⟨(Nat.digits 10 n).reverse, rfl, ?_, ?_, ?_⟩
    · intro hnil
      exact hpos (Nat.digits_eq_nil_iff_eq_zero.mp (List.reverse_eq_nil_iff.mp hnil))
    · intro d hd
      exact Nat.digits_lt_base (by decide) (List.mem_reverse.mp hd)
    · rw [List.foldl_reverse]
      have hdigits := Nat.ofDigits_digits 10 n
      rw [Nat.ofDigits_eq_foldr] at hdigits
      nth_rewrite 2 [← hdigits]
      congr 1
      funext d m
      simp only [Nat.cast_id]
      omega

theorem cstr_digits (ds : List Nat) (hds : ∀ d ∈ ds, d < 10) (rest : Bytes) :
    cstr (ds.map digit ++ 0 :: rest) = ds.map digit := by
  induction ds with
  | nil => rfl
  | cons d ds ih =>
    obtain ⟨-, -, hzero, -⟩ := digit_byte d (hds d (by simp))
    rw [List.map_cons, List.cons_append, cstr, if_neg hzero, ih fun e he => hds e (by simp [he])]

/-- A number that was written as a text is read back as far as an `int` goes. -/
theorem atoi_decimal (n : Nat) (rest : Bytes) :
    atoi (decimal n ++ 0 :: rest) = min (n : Int) (2 ^ 31 - 1) := by
  obtain ⟨ds, hdec, hne, hlt, hval⟩ := decimal_digits n
  rw [atoi, strtol, hdec, cstr_digits ds hlt rest]
  cases ds with
  | nil => exact absurd rfl hne
  | cons d ds =>
    obtain ⟨-, hspace, -, hminus, hplus⟩ := digit_byte d (hlt d (by simp))
    have hread : readNumber 10 ((d :: ds).map digit) = (false, n) := by
      rw [← hval, ← readDigits_map (d :: ds) hlt 0]
      simp [readNumber, hspace, hminus, hplus]
    rw [hread]
    rfl

theorem serve_chainInfo {s s' : Configd T} {q : Request T} {a : MyMsgBuf T}
    (hcmd : q.msg.cmd = Command.chainInfoId.cmd) (h : serve s q = some (s', a)) :
    s'.ram = s.ram ∧ s'.shm = q.shm ∧ ∀ info, a.request = msgSucc →
      a.info = some (.chain info) → info.perRecordSize = recordSize T q.msg.arg1 := by
  rw [serve_of_lookup (by rw [hcmd]; exact lookup_cmd _)] at h
  change cfgChainInfoId _ _ = _ at h
  unfold cfgChainInfoId at h
  split at h
  · cases h
    refine ⟨rfl, rfl, ?_⟩
    rintro info ⟨⟩
  · rename_i i hid
    cases h
    refine ⟨rfl, rfl, ?_⟩
    rintro info - ⟨⟩
    exact (recordSize_eq hid).symm

theorem serve_chainTotal {s s' : Configd T} {q : Request T} {a : MyMsgBuf T}
    (hcmd : q.msg.cmd = Command.chainTotal.cmd) (h : serve s q = some (s', a)) :
    s'.ram = s.ram ∧ s'.shm = q.shm := by
  rw [serve_of_lookup (by rw [hcmd]; exact lookup_cmd _)] at h
  cases h
  exact ⟨rfl, rfl⟩

/-- A read leaves the addressed record in the shared memory, or there is no such record. -/
theorem serve_chainGet {s s' : Configd T} {q : Request T} {a : MyMsgBuf T}
    (hcmd : q.msg.cmd = Command.chainGet.cmd) (h : serve s q = some (s', a)) :
    (a.request = msgSucc ∧ (chain s q.msg.arg1)[entryNo q.msg]? =
      some (s'.shm.1.take (recordSize T q.msg.arg1))) ∨
    (a.request ≠ msgSucc ∧ (chain s q.msg.arg1)[entryNo q.msg]? = none) := by
  rw [serve_of_lookup (by rw [hcmd]; exact lookup_cmd _)] at h
  change cfgChainGet (s.receive q) q.msg.toClient = _ at h
  unfold cfgChainGet at h
  rcases mibChainGet_cases s.ram q.msg.arg1 (entryNo q.msg) with
    ⟨i, v, hid, hv, hget, -⟩ | ⟨hget, hnone⟩
  · have hle := recordSize_le T q.msg.arg1
    rw [recordSize_eq hid] at hle
    obtain ⟨shm, hwrite, hshm⟩ : ∃ shm, q.shm.write 0 v.1 = some shm ∧
        shm.1 = v.1 ++ q.shm.1.drop v.1.length :=
      Block.write_after (show q.shm.1 = [] ++ q.shm.1 from rfl) rfl
        (by rw [q.shm.2, v.2]; exact hle)
    have hid' : mibChainMib2tblId T q.msg.toClient.arg1 = some i := hid
    have hget' : mibChainGet (s.receive q).ram q.msg.toClient.arg1 (entryNo q.msg.toClient) =
        some (i, entryNo q.msg) := hget
    have hbytes : recordBytes (s.receive q).ram (i, entryNo q.msg)
        (T.chainEntry i).perRecordSize = some v.1 := recordBytes_eq hv
    have hwrite' : (s.receive q).shm.write 0 v.1 = some shm := hwrite
    simp only [hid', hget', hbytes, withShm, hwrite', Option.map_some] at h
    cases h
    refine Or.inl ⟨rfl, ?_⟩
    rw [chain, abs_of_some hid, List.getElem?_map, hv, hshm, recordSize_eq hid,
      List.take_left' v.2]
    rfl
  · have hmissing : (chain s q.msg.arg1)[entryNo q.msg]? = none := by
      rw [List.getElem?_eq_none_iff]
      rcases ListStore.record_eq_none_iff.mp hnone with hunknown | hle
      · have hid : mibChainMib2tblId T q.msg.arg1 = none := by
          simpa [known] using hunknown
        simp [chain, ChainStore.abs, hid]
      · exact hle
    have hget' : mibChainGet (s.receive q).ram q.msg.toClient.arg1 (entryNo q.msg.toClient) =
        none := hget
    simp only [hget'] at h
    refine Or.inr ⟨?_, hmissing⟩
    split at h
    · cases h
      exact show msgFail ≠ msgSucc by decide
    · cases h
      exact show msgFail ≠ msgSucc by decide

theorem serve_chainAdd {s s' : Configd T} {q : Request T} {a : MyMsgBuf T}
    (hcmd : q.msg.cmd = Command.chainAdd.cmd) (h : serve s q = some (s', a)) :
    s'.shm = q.shm ∧ (a.request = msgSucc → (chain s' q.msg.arg1).getLast? =
      some (q.shm.1.take (recordSize T q.msg.arg1))) := by
  rw [serve_of_lookup (by rw [hcmd]; exact lookup_cmd _)] at h
  change cfgChainAdd (s.receive q) q.msg.toClient = _ at h
  unfold cfgChainAdd unlessLocked at h
  split at h
  · cases h
    refine ⟨rfl, ?_⟩
    rintro ⟨⟩
  obtain ⟨⟨ok, r⟩, hadd, he⟩ := Option.map_eq_some_iff.mp h
  cases he
  refine ⟨rfl, fun hsucc => ?_⟩
  change mibChainAdd s.ram q.msg.arg1 _ = _ at hadd
  cases hid : mibChainMib2tblId T q.msg.arg1 with
  | none =>
    simp only [mibChainAdd, hid] at hadd
    cases hadd
    cases hsucc
  | some i =>
    rcases mibChainAdd_cases hid hadd with ⟨-, -, -, v, hv, rfl⟩ | ⟨rfl, -, -⟩
    · obtain ⟨w, hw, hval⟩ := shm_record q.shm hid
      have hvw : v = w := Option.some.inj ((hv : q.shm.read 0 _ = some v).symm.trans hw)
      rw [chain, abs_setChain hid, Function.update_self, List.map_append, hvw, ← hval]
      simp
    · cases hsucc

theorem serve_chainUpdate {s s' : Configd T} {q : Request T} {a : MyMsgBuf T}
    (hcmd : q.msg.cmd = Command.chainUpdate.cmd) (h : serve s q = some (s', a)) :
    s'.shm = q.shm ∧ (a.request = msgSucc →
      (chain s' q.msg.arg1)[u32OfInt q.msg.arg2]? =
        some (q.shm.1.take (recordSize T q.msg.arg1))) := by
  rw [serve_of_lookup (by rw [hcmd]; exact lookup_cmd _)] at h
  change cfgChainUpdate (s.receive q) q.msg.toClient = _ at h
  unfold cfgChainUpdate unlessLocked at h
  split at h
  · cases h
    refine ⟨rfl, ?_⟩
    rintro ⟨⟩
  rcases mibChainGet_cases s.ram q.msg.arg1 (u32OfInt q.msg.arg2) with
    ⟨i, v, hid, hv, hget, -⟩ | ⟨hget, -⟩
  · obtain ⟨data, hread, hdata⟩ := shm_record q.shm hid
    obtain ⟨r', hwrite, -, habs⟩ := writeRecord_eq hid hv data.2
    have hid' : mibChainMib2tblId T q.msg.toClient.arg1 = some i := hid
    have hget' : mibChainGet (s.receive q).ram q.msg.toClient.arg1
        (u32OfInt q.msg.toClient.arg2) = some (i, u32OfInt q.msg.arg2) := hget
    have hread' : (s.receive q).shm.read 0 (T.chainEntry i).perRecordSize = some data := hread
    have hwrite' : writeRecord (s.receive q).ram (i, u32OfInt q.msg.arg2) data.1 = some r' :=
      hwrite
    simp only [hid', hget', hread', hwrite', Option.map_some] at h
    cases h
    refine ⟨rfl, fun _ => ?_⟩
    have hlt : u32OfInt q.msg.arg2 < (abs s.ram.toConfig q.msg.arg1).length := by
      rw [abs_of_some hid, List.length_map]
      exact (List.getElem?_eq_some_iff.mp hv).1
    rw [chain, habs, ListStore.put, Function.update_self, List.getElem?_set_self hlt, hdata]
  · have hget' : mibChainGet (s.receive q).ram q.msg.toClient.arg1
        (u32OfInt q.msg.toClient.arg2) = none := hget
    simp only [hget'] at h
    split at h
    · cases h
      refine ⟨rfl, ?_⟩
      rintro ⟨⟩
    · cases h
      refine ⟨rfl, ?_⟩
      rintro ⟨⟩

def phaseCalls : Phase T → List Nat
  | .reading => []
  | .processed m | .sending m => [m.call]

/-- The calls that have a message on its way, from the request to the reply. -/
def inFlight (s : ClientSystem.System T) : List Nat :=
  s.requests.map (·.call) ++ (phaseCalls s.phase ++ s.replies.map (·.call))

structure Numbered (s : ClientSystem.System T) : Prop where
  nodup : (inFlight s).Nodup
  started : ∀ n ∈ inFlight s, n < s.calls
  waiting : ∀ tid tgid n, s.clients tid = some ⟨tgid, some n⟩ → n < s.calls

/-- A step that loses messages, and starts no call. -/
theorem Numbered.sublist {s s' : ClientSystem.System T} (hs : Numbered s)
    (h : (inFlight s').Sublist (inFlight s)) (hcalls : s'.calls = s.calls)
    (hwait : ∀ tid tgid n, s'.clients tid = some ⟨tgid, some n⟩ → n < s.calls) :
    Numbered s' := by
  refine ⟨hs.nodup.sublist h, fun n hn => ?_, fun tid tgid n hc => ?_⟩
  · rw [hcalls]
    exact hs.started n (h.subset hn)
  · rw [hcalls]
    exact hwait tid tgid n hc

theorem waiting_setClient {s : ClientSystem.System T} (hs : Numbered s) {tid : Int}
    {c : Option Client} {m : Nat} (hm : s.calls ≤ m)
    (hc : ∀ tgid n, c = some ⟨tgid, some n⟩ → n < m) :
    ∀ tid' tgid n, (s.setClient tid c).clients tid' = some ⟨tgid, some n⟩ → n < m := by
  intro tid' tgid n hn
  by_cases htid : tid' = tid
  · subst htid
    rw [setClient_self] at hn
    exact hc tgid n hn
  · rw [setClient_other s htid] at hn
    exact lt_of_lt_of_le (hs.waiting tid' tgid n hn) hm

/-- Taking a message out of a queue. -/
theorem readMessage_perm {queue rest : List (Queued T)} {type : Int} {m : Queued T}
    (h : readMessage queue type = some (m, rest)) : List.Perm queue (m :: rest) := by
  obtain ⟨m', hfind, he⟩ := Option.map_eq_some_iff.mp h
  cases he
  obtain ⟨hm, pre, post, rfl, hpre⟩ := List.find?_eq_some_iff_append.mp hfind
  rw [List.eraseP_append_right _ (by simpa using hpre), 
    List.eraseP_cons_of_pos (p := fun x : Queued T => x.msg.mtype == type) hm]
  exact List.perm_middle

theorem numbered_step {s s' : ClientSystem.System T} {e : ClientSystem.Event T}
    {o : Option (Received T)} (hwf : WellFormed s) (hs : Numbered s)
    (h : ClientSystem.step s e = some (s', o)) : Numbered s' := by
  cases step_eq_some h with
  | start htid htgid hfree =>
    refine hs.sublist (.refl _) rfl (waiting_setClient hs (Nat.le_refl _) ?_)
    rintro tgid n ⟨⟩
  | exit =>
    refine hs.sublist (.refl _) rfl (waiting_setClient hs (Nat.le_refl _) ?_)
    rintro tgid n ⟨⟩
  | @send tid tgid stamptime qbuf hidle =>
    have hperm : List.Perm (inFlight { s.setClient tid (some ⟨tgid, some s.calls⟩) with
        requests := s.requests ++
          [⟨s.calls, sendMessage msgConfigdPid tid tgid stamptime qbuf⟩]
        calls := s.calls + 1 }) (s.calls :: inFlight s) := by
      unfold inFlight
      rw [List.map_append, List.append_assoc]
      exact List.perm_middle
    refine ⟨?_, fun n hn => ?_, ?_⟩
    · rw [hperm.nodup_iff, List.nodup_cons]
      refine ⟨fun hmem => ?_, hs.nodup⟩
      exact Nat.lt_irrefl _ (hs.started _ hmem)
    · rcases List.mem_cons.mp (hperm.subset hn) with rfl | hn
      · exact Nat.lt_succ_self _
      · exact Nat.lt_succ_of_lt (hs.started n hn)
    · refine waiting_setClient hs (Nat.le_succ _) ?_
      rintro tgid' n ⟨⟩
      exact Nat.lt_succ_self _
  | read hwait hread =>
    obtain ⟨-, -, hrest⟩ := readMessage_some hread
    refine hs.sublist ?_ rfl (waiting_setClient hs (Nat.le_refl _) ?_)
    · exact .append (.refl _) (.append (.refl _) (hrest.map _))
    · rintro tgid n ⟨⟩
  | abandon hwait =>
    refine hs.sublist (.refl _) rfl (waiting_setClient hs (Nat.le_refl _) ?_)
    rintro tgid n ⟨⟩
  | @process shm world m rest server a hphase hread hserve =>
    have hperm : List.Perm (inFlight s) (inFlight { s with
        server := server, phase := .processed ⟨m.call, a⟩, requests := rest }) := by
      unfold inFlight
      rw [hphase]
      refine ((readMessage_perm hread).map _).append_right _ |>.trans ?_
      exact List.perm_middle.symm
    refine ⟨hperm.nodup_iff.mp hs.nodup, fun n hn => ?_, hs.waiting⟩
    exact hs.started n (hperm.symm.subset hn)
  | found hphase hpid =>
    refine ⟨?_, ?_, hs.waiting⟩
    · have := hs.nodup
      unfold inFlight at this ⊢
      rwa [hphase] at this
    · have := hs.started
      unfold inFlight at this ⊢
      rwa [hphase] at this
  | gone hphase =>
    refine hs.sublist ?_ rfl hs.waiting
    unfold inFlight
    exact .append (.refl _) (.append (List.nil_sublist _) (.refl _))
  | @reply stamptime m hphase hroom =>
    have hperm : List.Perm (inFlight s) (inFlight { s with
        phase := .reading
        replies := s.replies ++
          [⟨m.call, sendMessage m.msg.mtype m.msg.request 0 stamptime m.msg⟩] }) := by
      unfold inFlight
      rw [hphase, List.map_append]
      exact List.perm_append_comm.append_left _
    refine ⟨hperm.nodup_iff.mp hs.nodup, fun n hn => ?_, hs.waiting⟩
    exact hs.started n (hperm.symm.subset hn)
  | clean hphase hclean =>
    have hkept := dropUnexist_sublist hwf.room hwf.replies hclean
    refine hs.sublist ?_ rfl hs.waiting
    exact .append (.refl _) (.append (.refl _) (hkept.map _))

/-- The message is the request that a call of `sendcmd` asks for. -/
def Asks : Ask → MyMsgBuf T → Prop
  | .info id, q => q.cmd = Command.chainInfoId.cmd ∧ q.arg1 = id
  | .total id, q => q.cmd = Command.chainTotal.cmd ∧ q.arg1 = id
  | .record id _ (.get recordNum), q =>
    q.cmd = Command.chainGet.cmd ∧ q.arg1 = id ∧ entryNo q = min recordNum.toNat (2 ^ 31 - 1)
  | .record id _ (.add _), q => q.cmd = Command.chainAdd.cmd ∧ q.arg1 = id
  | .record id _ (.update recordNum _), q =>
    q.cmd = Command.chainUpdate.cmd ∧ q.arg1 = id ∧ u32OfInt q.arg2 = recordNum.toNat

theorem request_asks {a : Ask} {q msg : MyMsgBuf T} (h : a.request q = some msg) :
    Asks a msg := by
  cases a with
  | info id | total id =>
    cases h
    exact ⟨rfl, rfl⟩
  | record id size op =>
    cases op with
    | get recordNum =>
      obtain ⟨mtext, hwrite, he⟩ := Option.map_eq_some_iff.mp h
      cases he
      refine ⟨rfl, rfl, ?_⟩
      obtain ⟨-, hval⟩ := Block.write_eq_some_iff.mp hwrite
      have htext : mtext.1 = decimal recordNum.toNat ++ 0 ::
          q.mtext.1.drop (0 + (decimal recordNum.toNat ++ [0]).length) := by
        rw [hval, List.take_zero, List.nil_append, List.append_assoc]
        rfl
      unfold entryNo
      dsimp only
      rw [htext, atoi_decimal, u32OfInt]
      omega
    | add ptr =>
      cases h
      exact ⟨rfl, rfl⟩
    | update recordNum ptr =>
      cases h
      refine ⟨rfl, rfl, ?_⟩
      have hlt := recordNum.toNat_lt
      dsimp only
      rw [s32, u32_eq hlt, u32OfInt]
      split
      · omega
      · omega

theorem Asks.send {a : Ask} {msg : MyMsgBuf T} (h : Asks a msg) (type req tgid : Int)
    (stamptime : Nat) : Asks a (sendMessage type req tgid stamptime msg) := by
  cases a with
  | info id | total id => exact h
  | record id size op => cases op <;> exact h

/-- The server has made an answer of the message. -/
def Returning (s : ClientSystem.System T) (m : Queued T) : Prop :=
  s.phase = .processed m ∨ s.phase = .sending m ∨ m ∈ s.replies

theorem returning_inFlight {s : ClientSystem.System T} {m : Queued T} (h : Returning s m) :
    m.call ∈ phaseCalls s.phase ++ s.replies.map (·.call) := by
  rcases h with h | h | h
  · simp [h, phaseCalls]
  · simp [h, phaseCalls]
  · exact List.mem_append_right _ (List.mem_map_of_mem h)

/-- A call whose answer is on its way has no request in the queue. -/
theorem Numbered.not_requested {s : ClientSystem.System T} (hs : Numbered s) {m x : Queued T}
    (hm : Returning s m) (hx : x ∈ s.requests) : x.call ≠ m.call := by
  have hdisj := (List.nodup_append.mp hs.nodup).2.2
  exact hdisj x.call (List.mem_map_of_mem hx) m.call (returning_inFlight hm)

/-- Answers come from processing a request, and are then only passed on. -/
theorem returning_step {s s' : ClientSystem.System T} {e : ClientSystem.Event T}
    {o : Option (Received T)} (hwf : WellFormed s) (h : ClientSystem.step s e = some (s', o))
    {m : Queued T} (hm : Returning s' m) :
    (∃ m₀, Returning s m₀ ∧ m₀.call = m.call ∧ m₀.msg.request = m.msg.request ∧
      m₀.msg.info = m.msg.info) ∨
    ((∃ shm world, e = .process shm world) ∧ s'.phase = .processed m) := by
  cases step_eq_some h with
  | start | exit | abandon | send => exact Or.inl ⟨m, hm, rfl, rfl, rfl⟩
  | read hwait hread =>
    obtain ⟨-, -, hrest⟩ := readMessage_some hread
    rcases hm with hm | hm | hm
    · exact Or.inl ⟨m, Or.inl hm, rfl, rfl, rfl⟩
    · exact Or.inl ⟨m, Or.inr (Or.inl hm), rfl, rfl, rfl⟩
    · exact Or.inl ⟨m, Or.inr (Or.inr (hrest.subset hm)), rfl, rfl, rfl⟩
  | process hphase hread hserve =>
    rcases hm with hm | hm | hm
    · exact Or.inr ⟨⟨_, _, rfl⟩, hm⟩
    · cases hm
    · exact Or.inl ⟨m, Or.inr (Or.inr hm), rfl, rfl, rfl⟩
  | found hphase hpid =>
    rcases hm with hm | hm | hm
    · cases hm
    · cases hm
      exact Or.inl ⟨m, Or.inl hphase, rfl, rfl, rfl⟩
    · exact Or.inl ⟨m, Or.inr (Or.inr hm), rfl, rfl, rfl⟩
  | gone hphase =>
    rcases hm with hm | hm | hm
    · cases hm
    · cases hm
    · exact Or.inl ⟨m, Or.inr (Or.inr hm), rfl, rfl, rfl⟩
  | reply hphase hroom =>
    rcases hm with hm | hm | hm
    · cases hm
    · cases hm
    · rcases List.mem_append.mp hm with hm | hm
      · exact Or.inl ⟨m, Or.inr (Or.inr hm), rfl, rfl, rfl⟩
      · rw [List.mem_singleton.mp hm]
        exact Or.inl ⟨_, Or.inr (Or.inl hphase), rfl, rfl, rfl⟩
  | clean hphase hclean =>
    have hkept := dropUnexist_sublist hwf.room hwf.replies hclean
    rcases hm with hm | hm | hm
    · exact Or.inl ⟨m, Or.inl hm, rfl, rfl, rfl⟩
    · exact Or.inl ⟨m, Or.inr (Or.inl hm), rfl, rfl, rfl⟩
    · exact Or.inl ⟨m, Or.inr (Or.inr (hkept.subset hm)), rfl, rfl, rfl⟩

theorem requests_step {s s' : ClientSystem.System T} {e : ClientSystem.Event T}
    {o : Option (Received T)} (h : ClientSystem.step s e = some (s', o)) {m : Queued T}
    (hm : m ∈ s'.requests) :
    m ∈ s.requests ∨ ∃ tid tgid stamptime qbuf, e = .send tid stamptime qbuf ∧
      m = ⟨s.calls, sendMessage msgConfigdPid tid tgid stamptime qbuf⟩ := by
  cases step_eq_some h with
  | start | exit | abandon | read | found | gone | reply | clean => exact Or.inl hm
  | send hidle =>
    rcases List.mem_append.mp hm with hm | hm
    · exact Or.inl hm
    · exact Or.inr ⟨_, _, _, _, rfl, List.mem_singleton.mp hm⟩
  | process hphase hread hserve =>
    obtain ⟨-, -, hrest⟩ := readMessage_some hread
    exact Or.inl (hrest.subset hm)

theorem calls_step {s s' : ClientSystem.System T} {e : ClientSystem.Event T}
    {o : Option (Received T)} (h : ClientSystem.step s e = some (s', o)) :
    s.calls ≤ s'.calls := by
  cases step_eq_some h with
  | send hidle => exact Nat.le_succ _
  | start | exit | abandon | read | found | gone | reply | clean | process => exact Nat.le_refl _

/-- The server has taken a request out of the queue and made an answer of it. -/
theorem process_spec {s s' : ClientSystem.System T} {shm : Block T.shmSize} {world : World T}
    {o : Option (Received T)} {m : Queued T}
    (h : ClientSystem.step s (.process shm world) = some (s', o))
    (hphase : s'.phase = .processed m) :
    ∃ q ∈ s.requests, q.call = m.call ∧
      serve s.server ⟨shm, world, q.msg⟩ = some (s'.server, m.msg) ∧
      s'.requests ⊆ s.requests ∧ s'.clients = s.clients := by
  cases step_eq_some h with
  | process hreading hread hserve =>
    cases hphase
    obtain ⟨hm, -, hrest⟩ := readMessage_some hread
    exact ⟨_, hm, rfl, hserve, hrest.subset, rfl⟩

/-- A successful answer has the data its client goes on with. -/
structure Answered (asks : Nat → Option Ask) (seen : Nat → Option Bytes) (m : Queued T) :
    Prop where
  info : ∀ id, asks m.call = some (.info id) → m.msg.request = msgSucc →
    ∀ info, m.msg.info = some (.chain info) → info.perRecordSize = recordSize T id
  get : ∀ id size recordNum, asks m.call = some (.record id size (.get recordNum)) →
    m.msg.request = msgSucc → (seen m.call).isSome

structure Messages (s : ClientSystem.System T) (asks : Nat → Option Ask)
    (seen : Nat → Option Bytes) : Prop where
  asked : ∀ m ∈ s.requests, ∃ a, asks m.call = some a ∧ Asks a m.msg
  answered : ∀ m, Returning s m → Answered asks seen m
  fresh : ∀ n, s.calls ≤ n → seen n = none

theorem Answered.congr {asks asks' : Nat → Option Ask} {seen seen' : Nat → Option Bytes}
    {m m' : Queued T} (h : Answered asks seen m) (hcall : m.call = m'.call)
    (hrequest : m.msg.request = m'.msg.request) (hinfo : m.msg.info = m'.msg.info)
    (hasks : asks' m'.call = asks m'.call) (hseen : seen' m'.call = seen m'.call) :
    Answered asks' seen' m' := by
  refine ⟨fun id hask hsucc info hmsg => ?_, fun id size recordNum hask hsucc => ?_⟩
  · rw [hasks, ← hcall] at hask
    exact h.info id hask (hrequest.trans hsucc) info (hinfo.trans hmsg)
  · rw [hasks, ← hcall] at hask
    rw [hseen, ← hcall]
    exact h.get id size recordNum hask (hrequest.trans hsucc)

/-- The queues only pass messages on. -/
theorem Messages.pass {s s' : ClientSystem.System T} {asks : Nat → Option Ask}
    {seen : Nat → Option Bytes} {e : ClientSystem.Event T} {o : Option (Received T)}
    (hs : Messages s asks seen) (hwf : WellFormed s)
    (h : ClientSystem.step s e = some (s', o))
    (hsend : ∀ tid stamptime qbuf, e ≠ .send tid stamptime qbuf)
    (hprocess : ∀ shm world, e ≠ .process shm world) : Messages s' asks seen := by
  refine ⟨fun m hm => ?_, fun m hm => ?_, fun n hn => hs.fresh n ((calls_step h).trans hn)⟩
  · rcases requests_step h hm with hold | ⟨tid, tgid, stamptime, qbuf, he, -⟩
    · exact hs.asked m hold
    · exact absurd he (hsend _ _ _)
  · rcases returning_step hwf h hm with ⟨m₀, hm₀, hcall, hreq, hinfo⟩ | ⟨⟨shm, world, he⟩, -⟩
    · exact (hs.answered m₀ hm₀).congr hcall hreq hinfo rfl rfl
    · exact absurd he (hprocess _ _)

/-- A new call has a number that no message carries yet. -/
theorem Messages.send {s s' : ClientSystem.System T} {asks : Nat → Option Ask}
    {seen : Nat → Option Bytes} {tid : Int} {stamptime : Nat} {msg : MyMsgBuf T} {a : Ask}
    {o : Option (Received T)} (hs : Messages s asks seen) (hwf : WellFormed s)
    (hnum : Numbered s) (hmsg : Asks a msg)
    (h : ClientSystem.step s (.send tid stamptime msg) = some (s', o)) :
    Messages s' (Function.update asks s.calls (some a)) seen := by
  have hold : ∀ n ∈ inFlight s, Function.update asks s.calls (some a) n = asks n := by
    intro n hn
    exact Function.update_of_ne (Nat.ne_of_lt (hnum.started n hn)) _ _
  refine ⟨fun m hm => ?_, fun m hm => ?_, fun n hn => hs.fresh n ((calls_step h).trans hn)⟩
  · rcases requests_step h hm with hm | ⟨tid', tgid', stamptime', qbuf, he, rfl⟩
    · rw [hold m.call (List.mem_append_left _ (List.mem_map_of_mem hm))]
      exact hs.asked m hm
    · cases he
      exact ⟨a, Function.update_self .., hmsg.send ..⟩
  · rcases returning_step hwf h hm with ⟨m₀, hm₀, hcall, hreq, hinfo⟩ | ⟨⟨shm, world, he⟩, -⟩
    · refine (hs.answered m₀ hm₀).congr hcall hreq hinfo (hold m.call ?_) rfl
      rw [← hcall]
      exact List.mem_append_right _ (returning_inFlight hm₀)
    · cases he

/-- Every record takes eight bytes for its node, also in a chain without bytes. -/
theorem chain_lt {s : Configd T} (h : InAddressSpace s.ram.toConfig) (id : Int) :
    (chain s id).length < 2 ^ 31 := by
  unfold chain ChainStore.abs
  split
  · decide
  · rename_i i hid
    rw [List.length_map]
    have hi : i ≤ T.chainTable.length := by
      rcases mib2tblId_eq_some_iff.mp hid with ⟨hi, -⟩ | ⟨hi, -⟩
      · exact hi.le
      · exact hi.le
    have hle : (s.ram.chains i).length * ((T.chainEntry i).perRecordSize + 8) ≤
        memoryUsed s.ram.toConfig :=
      List.le_sum_of_mem (List.mem_map.mpr ⟨i, List.mem_range.mpr (by omega), rfl⟩)
    have h8 : (s.ram.chains i).length * 8 ≤
        (s.ram.chains i).length * ((T.chainEntry i).perRecordSize + 8) :=
      Nat.mul_le_mul_left _ (by omega)
    unfold InAddressSpace at h
    omega

/-- The number of a record that exists survives its way through the text. -/
theorem served_get {s s' : Configd T} {q : Request T} {a : MyMsgBuf T} {id : Int} {size : Nat}
    {recordNum : UInt32} (hspace : InAddressSpace s.ram.toConfig)
    (hasks : Asks (.record id size (.get recordNum)) q.msg) (h : serve s q = some (s', a)) :
    (a.request = msgSucc ∧ (chain s id)[recordNum.toNat]? =
      some (s'.shm.1.take (recordSize T id))) ∨
    (a.request ≠ msgSucc ∧ (chain s id)[recordNum.toNat]? = none) := by
  obtain ⟨hcmd, rfl, hentry⟩ := hasks
  have hlt := chain_lt hspace q.msg.arg1
  have hsame : (chain s q.msg.arg1)[entryNo q.msg]? =
      (chain s q.msg.arg1)[recordNum.toNat]? := by
    rcases Nat.le_total recordNum.toNat (2 ^ 31 - 1) with hle | hge
    · rw [hentry, Nat.min_eq_left hle]
    · rw [hentry, List.getElem?_eq_none (by omega), List.getElem?_eq_none (by omega)]
  rw [← hsame]
  exact serve_chainGet hcmd h

theorem notes_other {s : System T} {server : Configd T} {call n : Nat} {a : MyMsgBuf T}
    (hn : n ≠ call) : (notes s server call a).1 n = s.seen n := by
  unfold notes
  split
  · exact Function.update_of_ne hn _ _
  · rfl
  · rfl
  · rfl

theorem Messages.process {s : System T} {base : ClientSystem.System T} {world : World T}
    {o : Option (Received T)} {m : Queued T} (hs : Messages s.base s.asks s.seen)
    (hwf : WellFormed s.base) (hnum : Numbered s.base)
    (hspace : InAddressSpace s.base.server.ram.toConfig)
    (h : ClientSystem.step s.base (.process s.shm world) = some (base, o))
    (hphase : base.phase = .processed m) :
    Messages base s.asks (notes s base.server m.call m.msg).1 := by
  obtain ⟨q, hq, hcall, hserve, hrest, -⟩ := process_spec h hphase
  obtain ⟨a, hask, hasks⟩ := hs.asked q hq
  refine ⟨fun x hx => hs.asked x (hrest hx), fun x hx => ?_, fun n hn => ?_⟩
  · rcases returning_step hwf h hx with ⟨x₀, hx₀, hx₁, hreq, hinfo⟩ | ⟨-, hx₁⟩
    · refine (hs.answered x₀ hx₀).congr hx₁ hreq hinfo rfl (notes_other ?_)
      rw [← hx₁, ← hcall]
      exact (hnum.not_requested hx₀ hq).symm
    · obtain rfl : m = x := by
        rw [hphase] at hx₁
        exact Phase.processed.inj hx₁
      refine ⟨fun id hid hsucc info hinfo => ?_, fun id size recordNum hid hsucc => ?_⟩
      · rw [← hcall, hask] at hid
        cases hid
        have hspec := (serve_chainInfo hasks.1 hserve).2.2 info hsucc hinfo
        rwa [show (Request.msg ⟨s.shm, world, q.msg⟩).arg1 = id from hasks.2] at hspec
      · have hrecord : a = .record id size (.get recordNum) := by
          rw [← hcall, hask] at hid
          exact Option.some.inj hid
        rw [hrecord] at hasks
        rcases served_get (q := ⟨s.shm, world, q.msg⟩) hspace hasks hserve with ⟨-, hget⟩ | ⟨hne, -⟩
        · have hnotes : (notes s base.server m.call m.msg).1 m.call =
              (chain s.base.server id)[recordNum.toNat]? := by
            simp only [notes, hid, Function.update_self]
          rw [hnotes, hget]
          rfl
        · exact absurd hsucc hne
  · have hne : n ≠ m.call := by
      have hlt := hnum.started q.call (List.mem_append_left _ (List.mem_map_of_mem hq))
      have hle := (calls_step h).trans hn
      omega
    rw [notes_other hne]
    exact hs.fresh n ((calls_step h).trans hn)

def Waits (s : System T) (tid : Int) (n : Nat) : Prop :=
  ∃ tgid, s.base.clients tid = some ⟨tgid, some n⟩

/-- The bytes that a writer passes lie in the shared memory. -/
def Filled (s : System T) (op : Op) (size : Nat) : Prop :=
  ∀ ptr, op.ptr = some ptr → size ≤ ptr.length ∧ s.shm.1.take size = ptr.take size

/-- What holds of a thread where it is: from the lock to its release it is the holder, and
it knows the size of the records of its chain. -/
def PcOk (s : System T) (tid : Int) : Pc → Prop
  | .idle => s.holder ≠ some tid
  | .info c id => s.holder ≠ some tid ∧
    ∀ id', c.target = some id' → recordSize T id = recordSize T id'
  | .total _ id info => s.holder ≠ some tid ∧ info.perRecordSize = recordSize T id
  | .locking _ id size => s.holder ≠ some tid ∧ size = recordSize T id
  | .putting _ id size => s.holder = some tid ∧ size = recordSize T id
  | .sending c id size => s.holder = some tid ∧ size = recordSize T id ∧
    ((∀ n, ¬ Waits s tid n) → Filled s c.op size) ∧
    ∀ n v, Waits s tid n → s.seen n = some v → v = s.shm.1.take size
  | .copying size call => s.holder = some tid ∧ s.seen call = some (s.shm.1.take size)
  | .unlocking => s.holder = some tid

/-- A request for a record belongs to the holder of the lock, who waits for its answer. -/
def Critical (s : System T) : Prop :=
  ∀ m ∈ s.base.requests, ∀ id size op, s.asks m.call = some (.record id size op) →
    ∃ tid, s.holder = some tid ∧ Waits s tid m.call ∧ Filled s op size

structure Threads (s : System T) : Prop where
  alive : ∀ tid, s.base.clients tid = none → s.pcs tid = .idle
  waiting : ∀ tid n, Waits s tid n → ∃ a, (s.pcs tid).ask = some a ∧ s.asks n = some a
  pc : ∀ tid, PcOk s tid (s.pcs tid)
  critical : Critical s

theorem Waits.unique {s : System T} {tid : Int} {n m : Nat} (hn : Waits s tid n)
    (hm : Waits s tid m) : n = m := by
  obtain ⟨tgid, hn⟩ := hn
  obtain ⟨tgid', hm⟩ := hm
  cases hn.symm.trans hm
  rfl

/-- Who does not hold the lock does not care about the shared memory. -/
theorem PcOk.of_ne {s s' : System T} {tid : Int} {pc : Pc} (h : PcOk s tid pc)
    (hne : s.holder ≠ some tid) (hne' : s'.holder ≠ some tid) : PcOk s' tid pc := by
  cases pc with
  | idle => exact hne'
  | info c id => exact ⟨hne', h.2⟩
  | total c id info => exact ⟨hne', h.2⟩
  | locking c id size => exact ⟨hne', h.2⟩
  | putting c id size => exact absurd h.1 hne
  | sending c id size => exact absurd h.1 hne
  | copying size call => exact absurd h.1 hne
  | unlocking => exact absurd h hne

theorem PcOk.same {s s' : System T} {tid : Int} {pc : Pc} (h : PcOk s tid pc)
    (hholder : s'.holder = some tid ↔ s.holder = some tid) (hshm : s'.shm = s.shm)
    (hseen : s'.seen = s.seen) (hwaits : ∀ n, Waits s' tid n ↔ Waits s tid n) :
    PcOk s' tid pc := by
  cases pc with
  | idle => exact fun hs' => h (hholder.mp hs')
  | info c id | total c id info | locking c id size =>
    exact ⟨fun hs' => h.1 (hholder.mp hs'), h.2⟩
  | putting c id size => exact ⟨hholder.mpr h.1, h.2⟩
  | sending c id size =>
    obtain ⟨hold, hsize, hfilled, hgot⟩ := h
    refine ⟨hholder.mpr hold, hsize, fun hidle ptr hptr => ?_, fun n v hn hv => ?_⟩
    · rw [hshm]
      exact hfilled (fun n hn => hidle n ((hwaits n).mpr hn)) ptr hptr
    · rw [hshm]
      rw [hseen] at hv
      exact hgot n v ((hwaits n).mp hn) hv
  | copying size call =>
    obtain ⟨hold, hcall⟩ := h
    refine ⟨hholder.mpr hold, ?_⟩
    rw [hshm, hseen]
    exact hcall
  | unlocking => exact hholder.mpr h

/-- Requests stay critical while their clients wait and the shared memory is not touched. -/
theorem Critical.keep {s s' : System T} (hs : Critical s)
    (hreq : s'.base.requests ⊆ s.base.requests) (hasks : s'.asks = s.asks)
    (hshm : s'.shm = s.shm)
    (hwaits : ∀ m ∈ s'.base.requests, ∀ id size op, s.asks m.call = some (.record id size op) →
      ∀ tid, s.holder = some tid → Waits s tid m.call →
        s'.holder = some tid ∧ Waits s' tid m.call) : Critical s' := by
  intro m hm id size op hop
  rw [hasks] at hop
  obtain ⟨tid, hold, hwait, hfilled⟩ := hs m (hreq hm) id size op hop
  obtain ⟨hold', hwait'⟩ := hwaits m hm id size op hop tid hold hwait
  refine ⟨tid, hold', hwait', fun ptr hptr => ?_⟩
  rw [hshm]
  exact hfilled ptr hptr

/-- Nobody waits for a record while the lock is free or its holder does something else. -/
theorem Critical.none_queued {s : System T} (hs : Critical s)
    (hidle : ∀ tid n, s.holder = some tid → ¬ Waits s tid n) {m : Queued T}
    (hm : m ∈ s.base.requests) {id : Int} {size : Nat} {op : Op} :
    s.asks m.call ≠ some (.record id size op) := by
  intro hop
  obtain ⟨tid, hold, hwait, -⟩ := hs m hm id size op hop
  exact hidle tid _ hold hwait

/-- The actor of a step, and everybody else. -/
theorem Threads.update {s s' : System T} (hs : Threads s) (tid : Int)
    (hclients : ∀ tid', tid' ≠ tid → s'.base.clients tid' = s.base.clients tid')
    (hpcs : ∀ tid', tid' ≠ tid → s'.pcs tid' = s.pcs tid')
    (hasks : ∀ tid' n, Waits s tid' n → s'.asks n = s.asks n)
    (hothers : ∀ tid', tid' ≠ tid → PcOk s' tid' (s.pcs tid'))
    (halive : s'.base.clients tid = none → s'.pcs tid = .idle)
    (hwait : ∀ n, Waits s' tid n → ∃ a, (s'.pcs tid).ask = some a ∧ s'.asks n = some a)
    (hpc : PcOk s' tid (s'.pcs tid)) (hcritical : Critical s') : Threads s' := by
  refine ⟨fun tid' hnone => ?_, fun tid' n hn => ?_, fun tid' => ?_, hcritical⟩
  · by_cases htid : tid' = tid
    · subst htid
      exact halive hnone
    · rw [hclients tid' htid] at hnone
      rw [hpcs tid' htid]
      exact hs.alive tid' hnone
  · by_cases htid : tid' = tid
    · subst htid
      exact hwait n hn
    · have hold : Waits s tid' n := by
        obtain ⟨tgid, hn⟩ := hn
        rw [hclients tid' htid] at hn
        exact ⟨tgid, hn⟩
      obtain ⟨a, hask, hcall⟩ := hs.waiting tid' n hold
      rw [hpcs tid' htid]
      exact ⟨a, hask, (hasks tid' n hold).trans hcall⟩
  · by_cases htid : tid' = tid
    · subst htid
      exact hpc
    · rw [hpcs tid' htid]
      exact hothers tid' htid

theorem lockFor_ok {s : System T} {tid id : Int} (c : Call) {info : ChainRecordTableEntry}
    (hne : s.holder ≠ some tid) (hsize : info.perRecordSize = recordSize T id) :
    PcOk s tid (lockFor T c id info) := by
  unfold lockFor
  split
  · exact hne
  · exact ⟨hne, hsize⟩

/-- An answer that says what it should leads the thread on. -/
theorem afterReply_ok {s s' : System T} {tid : Int} {pc pc' : Pc} {call : Nat}
    {reply : MyMsgBuf T} (h : PcOk s tid pc) (hholder : s'.holder = s.holder)
    (hshm : s'.shm = s.shm) (hseen : s'.seen = s.seen)
    (hinfo : ∀ c id, pc = .info c id → reply.request = msgSucc → ∀ info,
      reply.info = some (.chain info) → info.perRecordSize = recordSize T id)
    (hget : ∀ c id size recordNum, pc = .sending c id size → c.op = .get recordNum →
      reply.request = msgSucc → s.seen call = some (s.shm.1.take size))
    (hpc : afterReply call reply pc = some pc') : PcOk s' tid pc' := by
  cases pc with
  | info c id =>
    obtain ⟨hne, hsame⟩ := h
    rw [← hholder] at hne
    simp only [afterReply, afterInfo] at hpc
    split at hpc
    swap
    · cases hpc
      exact hne
    rename_i hsucc
    split at hpc
    · rename_i info id' hreply htarget
      have hsize : info.perRecordSize = recordSize T id' :=
        (hinfo c id rfl hsucc info hreply).trans (hsame id' htarget)
      split at hpc
      · cases hpc
        exact ⟨hne, hsize⟩
      · cases hpc
        exact lockFor_ok c hne hsize
    · cases hpc
      exact hne
    · cases hpc
  | total c id info =>
    obtain ⟨hne, hsize⟩ := h
    rw [← hholder] at hne
    cases hpc
    unfold afterTotal
    generalize (if reply.request = msgSucc then reply.arg1 else 0) = n
    dsimp only
    split
    · exact hne
    · exact lockFor_ok c hne hsize
  | sending c id size =>
    obtain ⟨hold, -, -, -⟩ := h
    rw [← hholder] at hold
    cases hpc
    unfold afterRecord
    split
    · rename_i recordNum hop
      split
      · rename_i hsucc
        refine ⟨hold, ?_⟩
        rw [hseen, hshm]
        exact hget c id size recordNum rfl hop hsucc
      · exact hold
    · exact hold
  | idle | locking c id size | putting c id size | copying size call | unlocking => cases hpc

theorem afterLock_ok {s : System T} {tid id : Int} {c : Call} {size : Nat}
    (hold : s.holder = some tid) (hsize : size = recordSize T id)
    (hidle : ∀ n, ¬ Waits s tid n) : PcOk s tid (afterLock c id size) := by
  unfold afterLock
  split
  · rename_i recordNum hop
    refine ⟨hold, hsize, fun _ => ?_, fun n v hn => absurd hn (hidle n)⟩
    rw [hop]
    rintro ptr ⟨⟩
  · exact ⟨hold, hsize⟩

structure Inv (s : System T) : Prop where
  wellFormed : WellFormed s.base
  expected : Expected s.base
  numbered : Numbered s.base
  messages : Messages s.base s.asks s.seen
  threads : Threads s

/-- The thread waits for the answer to a request for a record that is still in the queue. -/
def Outstanding (s : System T) (tid : Int) : Prop :=
  ∃ m ∈ s.base.requests, Waits s tid m.call ∧
    ∃ id size op, s.asks m.call = some (.record id size op)

/-- The lock file can be opened, nobody gives the lock up while its request is in the queue,
no call starts with a leftover of an earlier one on its way, a client that names a radio
finds there records of the same size, and the records are objects of a 32-bit address
space. -/
def Guarded (s : System T) : Event T → Prop
  | .call _ c => ∀ id id', c.infoId = some id → c.target = some id' →
    recordSize T id = recordSize T id'
  | .act tid _ _ => (s.pcs tid).ask ≠ none → ∀ x, s.base.clients tid = some x →
    x.call = none → ∀ m, ¬ Pending s.base tid x.tgid m
  | .die tid | .sendFails tid => ¬ Outstanding s tid
  | .openFails _ => False
  | .process _ => InAddressSpace s.base.server.ram.toConfig
  | _ => True

/-- The queues of the system are those of `ClientSystem`. -/
theorem base_step {s s' : System T} {e : Event T} {o : Output} (hs : Inv s)
    (hguard : Guarded s e) (h : Step s e s' o) :
    WellFormed s'.base ∧ Expected s'.base ∧ Numbered s'.base := by
  obtain ⟨hwf, hexp, hnum, -, -⟩ := hs
  have hqueue : ∀ {e : ClientSystem.Event T} {base : ClientSystem.System T}
      {o : Option (Received T)}, ClientSystem.step s.base e = some (base, o) →
      Fresh s.base e → WellFormed base ∧ Expected base ∧ Numbered base := fun hstep hfresh =>
    ⟨wellFormed_step hwf hstep, expected_step hwf hexp hfresh hstep, numbered_step hwf hnum hstep⟩
  cases h with
  | start h | die h | read h hpc | notRead h hpc | process h hphase | check h | reply h
  | clean h => exact hqueue h trivial
  | @send tid stamptime qbuf msg a base o x halive hask hmsg h =>
    refine hqueue h ?_
    intro c hc
    cases step_eq_some h with
    | send hidle =>
      cases hidle.symm.trans hc
      exact hguard (by rw [hask]; exact Option.some_ne_none a) _ hc rfl
  | put hpc hptr hput =>
    refine ⟨⟨hwf.clients, hwf.requests, hwf.processed, hwf.sending, hwf.replies, hwf.room⟩,
      fun tid tgid call hc m hm => ?_, ⟨hnum.nodup, hnum.started, hnum.waiting⟩⟩
    exact hexp tid tgid call hc m (hm.mono (.refl _) (Or.inl rfl) (.refl _))
  | call hpc halive hid | lock hpc hfree | copy hpc hread | unlock hpc | notSent hidle hpc
  | openFails hpc | putFails hpc | copyFails hpc => exact ⟨hwf, hexp, hnum⟩

theorem messages_step {s s' : System T} {e : Event T} {o : Output} (hs : Inv s)
    (hguard : Guarded s e) (h : Step s e s' o) : Messages s'.base s'.asks s'.seen := by
  obtain ⟨hwf, -, hnum, hmsg, -⟩ := hs
  cases h with
  | start h | die h | read h hpc | notRead h hpc | check h | reply h | clean h =>
    refine hmsg.pass hwf h ?_ ?_
    · rintro tid stamptime qbuf ⟨⟩
    · rintro shm world ⟨⟩
  | send halive hask hreq h => exact hmsg.send hwf hnum (request_asks hreq) h
  | process h hphase => exact hmsg.process hwf hnum hguard h hphase
  | put hpc hptr hput => exact ⟨hmsg.asked, hmsg.answered, hmsg.fresh⟩
  | call hpc halive hid | lock hpc hfree | copy hpc hread | unlock hpc | notSent hidle hpc
  | openFails hpc | putFails hpc | copyFails hpc => exact hmsg

/-- Only the place of one thread changes. -/
theorem Threads.setPc {s : System T} {tid : Int} {pc : Pc} (hs : Threads s)
    (halive : s.base.clients tid ≠ none) (hidle : ∀ n, ¬ Waits s tid n)
    (hpc : PcOk s tid pc) : Threads (s.setPc tid pc) := by
  refine hs.update tid (fun _ _ => rfl) (fun tid' hne => ?_) (fun _ _ _ => rfl)
    (fun tid' _ => ?_) ?_ (fun n hn => absurd hn (hidle n)) ?_ ?_
  · exact Function.update_of_ne hne _ _
  · exact (hs.pc tid').same Iff.rfl rfl rfl fun _ => Iff.rfl
  · exact fun hnone => absurd hnone halive
  · change PcOk _ tid (Function.update s.pcs tid pc tid)
    rw [Function.update_self]
    exact hpc.same Iff.rfl rfl rfl fun _ => Iff.rfl
  · exact hs.critical.keep (List.Subset.refl _) rfl rfl fun _ _ _ _ _ _ _ hold hwait => ⟨hold, hwait⟩

/-- A thread that asks for nothing does not wait. -/
theorem Threads.not_waiting {s : System T} (hs : Threads s) {tid : Int}
    (hask : (s.pcs tid).ask = none) (n : Nat) : ¬ Waits s tid n := by
  intro hn
  obtain ⟨a, ha, -⟩ := hs.waiting tid n hn
  rw [hask] at ha
  cases ha

theorem Threads.alive_of {s : System T} (hs : Threads s) {tid : Int}
    (hpc : s.pcs tid ≠ .idle) : s.base.clients tid ≠ none :=
  fun hnone => hpc (hs.alive tid hnone)

theorem holder_other {s : System T} {tid tid' : Int} (hold : s.holder = some tid)
    (hne : tid' ≠ tid) : s.holder ≠ some tid' := by
  rw [hold]
  rintro ⟨⟩
  exact hne rfl

theorem release_holder {s : System T} {tid tid' : Int} :
    (s.release tid).holder = some tid' ↔ tid' ≠ tid ∧ s.holder = some tid' := by
  unfold System.release
  dsimp only
  split
  · rename_i hold
    rw [hold, Option.some.injEq]
    constructor
    · rintro ⟨⟩
    · rintro ⟨hne, rfl⟩
      exact absurd rfl hne
  · rename_i hold
    constructor
    · intro hs
      refine ⟨?_, hs⟩
      rintro rfl
      exact hold hs
    · exact fun h => h.2

theorem base_waits {s : System T} {base : ClientSystem.System T} {tid : Int} {c : Option Client}
    (hbase : base.clients = Function.update s.base.clients tid c) {pcs : Int → Pc}
    {asks : Nat → Option Ask} {seen : Nat → Option Bytes} {holder : Option Int} {tid' : Int}
    (hne : tid' ≠ tid) (n : Nat) :
    Waits ⟨base, holder, pcs, asks, seen⟩ tid' n ↔ Waits s tid' n := by
  unfold Waits
  dsimp only
  rw [hbase, Function.update_of_ne hne]

/-- A call of `sendcmd` ends, or a thread starts or ends: nothing is left of what the thread
waited for, and everybody else goes on. -/
theorem Threads.leave {s : System T} {base : ClientSystem.System T} {tid : Int}
    {c : Option Client} {pc : Pc} {holder : Option Int} (hs : Threads s)
    (hclients : base.clients = Function.update s.base.clients tid c)
    (hc : ∀ x, c = some x → x.call = none) (hreq : base.requests ⊆ s.base.requests)
    (hshm : base.server.shm = s.shm)
    (hholder : ∀ tid', tid' ≠ tid → (holder = some tid' ↔ s.holder = some tid'))
    (hleft : ∀ m ∈ base.requests, ∀ id size op,
      s.asks m.call = some (.record id size op) → ¬ Waits s tid m.call)
    (halive : c = none → pc = .idle)
    (hpc : PcOk ⟨base, holder, Function.update s.pcs tid pc, s.asks, s.seen⟩ tid pc) :
    Threads ⟨base, holder, Function.update s.pcs tid pc, s.asks, s.seen⟩ := by
  refine hs.update tid (fun tid' hne => ?_) (fun tid' hne => ?_) (fun _ _ _ => rfl)
    (fun tid' hne => ?_) (fun hnone => ?_) (fun n hn => ?_) ?_ ?_
  · change base.clients tid' = _
    rw [hclients, Function.update_of_ne hne]
  · exact Function.update_of_ne hne _ _
  · exact (hs.pc tid').same (hholder tid' hne) hshm rfl (base_waits hclients hne)
  · change base.clients tid = none at hnone
    rw [hclients, Function.update_self] at hnone
    change Function.update s.pcs tid pc tid = _
    rw [Function.update_self]
    exact halive hnone
  · obtain ⟨tgid, hn⟩ := hn
    change base.clients tid = _ at hn
    rw [hclients, Function.update_self] at hn
    cases hc _ hn
  · change PcOk _ tid (Function.update s.pcs tid pc tid)
    rw [Function.update_self]
    exact hpc
  · refine hs.critical.keep hreq rfl hshm ?_
    intro m hm id size op hop tid' hold hwait
    have hne : tid' ≠ tid := by
      rintro rfl
      exact hleft m hm id size op hop hwait
    exact ⟨(hholder tid' hne).mpr hold, (base_waits hclients hne m.call).mpr hwait⟩

/-- The server passes answers on. -/
theorem Threads.server {s : System T} {base : ClientSystem.System T} (hs : Threads s)
    (hclients : base.clients = s.base.clients) (hreq : base.requests ⊆ s.base.requests)
    (hshm : base.server.shm = s.shm) : Threads { s with base := base } := by
  have hwaits : ∀ tid n, Waits { s with base := base } tid n ↔ Waits s tid n := by
    intro tid n
    unfold Waits
    dsimp only
    rw [hclients]
  refine ⟨fun tid hnone => ?_, fun tid n hn => hs.waiting tid n ((hwaits tid n).mp hn),
    fun tid => (hs.pc tid).same Iff.rfl hshm rfl (hwaits tid), ?_⟩
  · change base.clients tid = none at hnone
    rw [hclients] at hnone
    exact hs.alive tid hnone
  · exact hs.critical.keep hreq rfl hshm fun m _ _ _ _ _ tid hold hwait =>
      ⟨hold, (hwaits tid m.call).mpr hwait⟩

theorem threads_lock {s : System T} {tid id : Int} {c : Call} {size : Nat} (hs : Threads s)
    (hpc : s.pcs tid = .locking c id size) (hfree : s.holder = none) :
    Threads ({ s with holder := some tid }.setPc tid (afterLock c id size)) := by
  have hfree' : ∀ tid', s.holder ≠ some tid' := by
    intro tid'
    rw [hfree]
    rintro ⟨⟩
  have hask : (s.pcs tid).ask = none := by
    rw [hpc]
    rfl
  have hidle := hs.not_waiting hask
  refine hs.update tid (fun _ _ => rfl) (fun tid' hne => ?_) (fun _ _ _ => rfl)
    (fun tid' hne => ?_) (fun hnone => ?_) (fun n hn => absurd hn (hidle n)) ?_ ?_
  · exact Function.update_of_ne hne _ _
  · refine (hs.pc tid').of_ne (hfree' tid') ?_
    change some tid ≠ some tid'
    rintro ⟨⟩
    exact hne rfl
  · exact absurd hnone (hs.alive_of (by rw [hpc]; rintro ⟨⟩))
  · have hsize := hs.pc tid
    rw [hpc] at hsize
    change PcOk _ tid (Function.update s.pcs tid _ tid)
    rw [Function.update_self]
    exact afterLock_ok rfl hsize.2 hidle
  · intro m hm id' size' op hop
    exact absurd hop (hs.critical.none_queued (fun tid' n hold => absurd hold (hfree' tid')) hm)

/-- The holder fills the shared memory while nothing of it is in use. -/
theorem threads_put {s : System T} {tid id : Int} {c : Call} {size : Nat} {ptr : Bytes}
    {shm : Block T.shmSize} (hs : Threads s) (hpc : s.pcs tid = .putting c id size)
    (hptr : c.op.ptr = some ptr) (hput : putShmData s.shm ptr size = some shm) :
    Threads ((s.setShm shm).setPc tid (.sending c id size)) := by
  have hask : (s.pcs tid).ask = none := by
    rw [hpc]
    rfl
  have hidle := hs.not_waiting hask
  obtain ⟨hold, hsize⟩ : s.holder = some tid ∧ size = recordSize T id := by
    have hok := hs.pc tid
    rwa [hpc] at hok
  refine hs.update tid (fun _ _ => rfl) (fun tid' hne => ?_) (fun _ _ _ => rfl)
    (fun tid' hne => ?_) (fun hnone => ?_) (fun n hn => absurd hn (hidle n)) ?_ ?_
  · exact Function.update_of_ne hne _ _
  · exact (hs.pc tid').of_ne (holder_other hold hne) (holder_other (s := s) hold hne)
  · exact absurd hnone (hs.alive_of (by rw [hpc]; rintro ⟨⟩))
  · change PcOk _ tid (Function.update s.pcs tid _ tid)
    rw [Function.update_self]
    refine ⟨hold, hsize, fun _ ptr' hptr' => ?_, fun n v hn => absurd hn (hidle n)⟩
    obtain rfl : ptr = ptr' := Option.some.inj (hptr.symm.trans hptr')
    unfold putShmData at hput
    split at hput
    · cases hput
    rename_i data hread
    obtain ⟨hle, hdata⟩ := Block.read_eq_some_iff.mp hread
    obtain ⟨-, hval⟩ := Block.write_eq_some_iff.mp hput
    refine ⟨by omega, ?_⟩
    change shm.1.take size = ptr.take size
    rw [hval, List.take_zero, List.nil_append, List.take_left' data.2, hdata]
    rfl
  · intro m hm id' size' op hop
    refine absurd hop (hs.critical.none_queued (fun tid' n hold' hwait => ?_) hm)
    obtain rfl : tid = tid' := Option.some.inj (hold.symm.trans hold')
    exact hidle n hwait

theorem ask_record {pc : Pc} {id : Int} {size : Nat} {op : Op}
    (h : pc.ask = some (.record id size op)) : ∃ c, pc = .sending c id size ∧ c.op = op := by
  cases pc with
  | sending c id' size' =>
    cases h
    exact ⟨c, rfl, rfl⟩
  | idle | info c id | total c id info | locking c id size | putting c id size
  | copying size call | unlocking => cases h

theorem threads_send {s : System T} {base : ClientSystem.System T} {tid : Int}
    {stamptime : Nat} {msg : MyMsgBuf T} {a : Ask} {o : Option (Received T)} (hs : Inv s)
    (hask : (s.pcs tid).ask = some a)
    (h : ClientSystem.step s.base (.send tid stamptime msg) = some (base, o)) :
    Threads { s with base := base, asks := Function.update s.asks s.base.calls (some a) } := by
  obtain ⟨-, -, hnum, hmsg, hthreads⟩ := hs
  obtain ⟨s', hs'⟩ : ∃ s' : System T, s' =
    { s with base := base, asks := Function.update s.asks s.base.calls (some a) } := ⟨_, rfl⟩
  rw [← hs']
  cases step_eq_some h with
  | @send _ tgid _ _ hidle =>
  have hnot : ∀ n, ¬ Waits s tid n := by
    rintro n ⟨tgid', hn⟩
    cases hidle.symm.trans hn
  have hself : ∀ n, Waits s' tid n ↔ n = s.base.calls := by
    intro n
    rw [hs']
    unfold Waits
    dsimp only
    rw [setClient_self]
    constructor
    · rintro ⟨tgid', hn⟩
      cases hn
      rfl
    · rintro rfl
      exact ⟨tgid, rfl⟩
  have hother : ∀ tid', tid' ≠ tid → ∀ n, Waits s' tid' n ↔ Waits s tid' n := by
    intro tid' hne n
    rw [hs']
    exact base_waits rfl hne n
  have hold : ∀ n, n < s.base.calls → s'.asks n = s.asks n := by
    intro n hn
    rw [hs']
    exact Function.update_of_ne (Nat.ne_of_lt hn) _ _
  have hnew : s'.asks s.base.calls = some a := by
    rw [hs']
    exact Function.update_self ..
  have hpcs : s'.pcs = s.pcs := by rw [hs']
  have hholder : s'.holder = s.holder := by rw [hs']
  have hshm : s'.shm = s.shm := by rw [hs']; rfl
  have hseen : s'.seen = s.seen := by rw [hs']
  refine hthreads.update tid (fun tid' hne => ?_) (fun tid' _ => by rw [hpcs])
    (fun tid' n hn => ?_) (fun tid' hne => ?_) (fun hnone => ?_) (fun n hn => ?_) ?_ ?_
  · rw [hs']
    exact setClient_other s.base hne _
  · obtain ⟨tgid', hn⟩ := hn
    exact hold n (hnum.waiting tid' tgid' n hn)
  · exact (hthreads.pc tid').same (by rw [hholder]) hshm hseen (hother tid' hne)
  · rw [hs'] at hnone
    cases (setClient_self s.base tid _).symm.trans hnone
  · rw [(hself n).mp hn, hpcs]
    exact ⟨a, hask, hnew⟩
  · rw [hpcs]
    have hok := hthreads.pc tid
    cases hpc : s.pcs tid with
    | info c id | total c id info =>
      rw [hpc] at hok
      refine ⟨?_, hok.2⟩
      rw [hholder]
      exact hok.1
    | sending c id size =>
      rw [hpc] at hok
      refine ⟨by rw [hholder]; exact hok.1, hok.2.1, fun hno => ?_, fun n v hn hv => ?_⟩
      · exact absurd ((hself _).mpr rfl) (hno s.base.calls)
      · rw [(hself n).mp hn, hseen, hmsg.fresh _ (Nat.le_refl _)] at hv
        cases hv
    | idle | locking c id size | putting c id size | copying size call | unlocking =>
      rw [hpc] at hask
      cases hask
  · intro m hm id size op hop
    have hm' : m ∈ s.base.requests ++
        [⟨s.base.calls, sendMessage msgConfigdPid tid tgid stamptime msg⟩] := by
      rw [hs'] at hm
      exact hm
    rcases List.mem_append.mp hm' with hm' | hm'
    · rw [hold _ (hnum.started _ (List.mem_append_left _ (List.mem_map_of_mem hm')))] at hop
      obtain ⟨tid', hold', hwait, hfilled⟩ := hthreads.critical m hm' id size op hop
      have hne : tid' ≠ tid := by
        rintro rfl
        exact hnot _ hwait
      refine ⟨tid', by rw [hholder]; exact hold', (hother tid' hne _).mpr hwait,
        fun ptr hptr => ?_⟩
      rw [hshm]
      exact hfilled ptr hptr
    · rw [List.mem_singleton.mp hm'] at hop ⊢
      cases hnew.symm.trans hop
      obtain ⟨c, hpc, rfl⟩ := ask_record hask
      have hok := hthreads.pc tid
      rw [hpc] at hok
      refine ⟨tid, by rw [hholder]; exact hok.1, (hself _).mpr rfl, fun ptr hptr => ?_⟩
      rw [hshm]
      exact hok.2.2.1 hnot ptr hptr

/-- A request for a record is processed. -/
theorem record_spec {s : System T} {server : Configd T} {world : World T} {q : MyMsgBuf T}
    {call : Nat} {reply : MyMsgBuf T} {id : Int} {size : Nat} {op : Op}
    (hspace : InAddressSpace s.base.server.ram.toConfig)
    (hask : s.asks call = some (.record id size op)) (hasks : Asks (.record id size op) q)
    (hsize : size = recordSize T id) (hfilled : Filled s op size)
    (hserve : serve s.base.server ⟨s.shm, world, q⟩ = some (server, reply)) :
    Right (notes s server call reply).2 ∧
      ((∃ recordNum, op = .get recordNum ∧
        ∀ v, (notes s server call reply).1 call = some v → v = server.shm.1.take size) ∨
      ((notes s server call reply).1 = s.seen ∧ server.shm = s.shm)) := by
  have hpassed : ∀ ptr, op.ptr = some ptr →
      ((Block.ofBytes ptr).read 0 size).map (·.1) = some (s.shm.1.take size) := by
    intro ptr hptr
    obtain ⟨hle, hdata⟩ := hfilled ptr hptr
    have hread : (Block.ofBytes ptr).read 0 size =
        some ⟨ptr.take size, by rw [List.length_take, Nat.min_eq_left hle]⟩ := by
      rw [Block.read_eq_some_iff]
      exact ⟨by omega, rfl⟩
    rw [hread, hdata]
    rfl
  cases op with
  | get recordNum =>
    have hnotes : notes s server call reply =
        (Function.update s.seen call (chain s.base.server id)[recordNum.toNat]?, .none) := by
      simp only [notes, hask]
    rw [hnotes]
    refine ⟨trivial, Or.inl ⟨recordNum, rfl, fun v hv => ?_⟩⟩
    dsimp only at hv
    rw [Function.update_self] at hv
    rcases served_get hspace hasks hserve with ⟨-, hget⟩ | ⟨-, hget⟩
    · rw [hget] at hv
      rw [hsize]
      exact (Option.some.inj hv).symm
    · rw [hget] at hv
      cases hv
  | add ptr =>
    obtain ⟨hcmd, harg⟩ := hasks
    obtain ⟨hshm, hlast⟩ := serve_chainAdd (q := ⟨s.shm, world, q⟩) hcmd hserve
    simp only [notes, hask]
    refine ⟨?_, Or.inr ⟨trivial, hshm⟩⟩
    split
    · rename_i hsucc
      have hstored := hlast hsucc
      dsimp only at hstored
      rw [harg, ← hsize] at hstored
      exact ⟨_, hstored, hpassed ptr rfl⟩
    · trivial
  | update recordNum ptr =>
    obtain ⟨hcmd, harg, harg2⟩ := hasks
    obtain ⟨hshm, hset⟩ := serve_chainUpdate (q := ⟨s.shm, world, q⟩) hcmd hserve
    simp only [notes, hask]
    refine ⟨?_, Or.inr ⟨trivial, hshm⟩⟩
    split
    · rename_i hsucc
      have hstored := hset hsucc
      dsimp only at hstored
      rw [harg, harg2, ← hsize] at hstored
      exact ⟨_, hstored, hpassed ptr rfl⟩
    · trivial

theorem threads_process {s : System T} {base : ClientSystem.System T} {world : World T}
    {m : Queued T} {o : Option (Received T)} (hs : Inv s)
    (hspace : InAddressSpace s.base.server.ram.toConfig)
    (h : ClientSystem.step s.base (.process s.shm world) = some (base, o))
    (hphase : base.phase = .processed m) :
    Threads { s with base := base, seen := (notes s base.server m.call m.msg).1 } ∧
      Right (notes s base.server m.call m.msg).2 := by
  obtain ⟨hwf, -, hnum, hmsg, hthreads⟩ := hs
  obtain ⟨q, hq, hcall, hserve, hreq, hclients⟩ := process_spec h hphase
  obtain ⟨a, hask, hasks⟩ := hmsg.asked q hq
  rw [hcall] at hask
  -- a request for a description or a length leaves the shared memory alone
  have hplain : base.server.shm = s.shm →
      notes s base.server m.call m.msg = (s.seen, .none) →
      Threads { s with base := base, seen := (notes s base.server m.call m.msg).1 } ∧
        Right (notes s base.server m.call m.msg).2 := by
    intro hshm hnotes
    rw [hnotes]
    exact ⟨hthreads.server hclients hreq hshm, trivial⟩
  cases a with
  | info id =>
    refine hplain (serve_chainInfo hasks.1 hserve).2.1 ?_
    simp only [notes, hask]
  | total id =>
    refine hplain (serve_chainTotal hasks.1 hserve).2 ?_
    simp only [notes, hask]
  | record id size op =>
    obtain ⟨tid, hold, hwait, hfilled⟩ := hthreads.critical q hq id size op (by rw [hcall]; exact hask)
    rw [hcall] at hwait
    obtain ⟨a, hpcask, hcallask⟩ := hthreads.waiting tid m.call hwait
    obtain ⟨c, hpc, rfl⟩ := ask_record (hpcask.trans (hcallask.symm.trans hask))
    have hok := hthreads.pc tid
    rw [hpc] at hok
    obtain ⟨-, hsize, -, hgot⟩ := hok
    obtain ⟨hright, heffect⟩ := record_spec hspace hask hasks hsize hfilled hserve
    refine ⟨?_, hright⟩
    obtain ⟨s', hs'⟩ : ∃ s' : System T, s' =
      { s with base := base, seen := (notes s base.server m.call m.msg).1 } := ⟨_, rfl⟩
    have hwaits : ∀ tid n, Waits s' tid n ↔ Waits s tid n := by
      intro tid n
      rw [hs']
      unfold Waits
      dsimp only
      rw [hclients]
    have hpcs : s'.pcs = s.pcs := by rw [hs']
    have hasks' : s'.asks = s.asks := by rw [hs']
    have hholder : s'.holder = s.holder := by rw [hs']
    rw [← hs']
    refine hthreads.update tid (fun tid' _ => by rw [hs']; exact congrFun hclients tid')
      (fun tid' _ => by rw [hpcs]) (fun tid' n _ => by rw [hasks']) (fun tid' hne => ?_)
      (fun hnone => ?_) (fun n hn => ?_) ?_ ?_
    · exact (hthreads.pc tid').of_ne (holder_other hold hne) (by
        rw [hholder]
        exact holder_other hold hne)
    · obtain ⟨tgid, hclient⟩ := (hwaits tid m.call).mpr hwait
      cases hclient.symm.trans hnone
    · rw [hpcs, hasks']
      exact hthreads.waiting tid n ((hwaits tid n).mp hn)
    · rw [hpcs, hpc]
      refine ⟨by rw [hholder]; exact hold, hsize, fun hno => ?_, fun n v hn hv => ?_⟩
      · exact absurd ((hwaits tid m.call).mpr hwait) (hno m.call)
      · obtain rfl := ((hwaits tid n).mp hn).unique hwait
        rcases heffect with ⟨recordNum, -, hread⟩ | ⟨hseen, hshm⟩
        · rw [hs'] at hv ⊢
          exact hread v hv
        · rw [hs'] at hv ⊢
          dsimp only at hv
          rw [hseen] at hv
          change v = base.server.shm.1.take size
          rw [hshm]
          exact hgot m.call v hwait hv
    · intro x hx id' size' op' hop
      have hx' : x ∈ base.requests := by rwa [hs'] at hx
      rw [hasks'] at hop
      obtain ⟨tid', hold', hwait', -⟩ := hthreads.critical x (hreq hx') id' size' op' hop
      obtain rfl : tid = tid' := Option.some.inj (hold.symm.trans hold')
      have hnum' := numbered_step hwf hnum h
      exact absurd (hwait'.unique hwait) (hnum'.not_requested (Or.inl hphase) hx')

theorem afterReply_alive {call : Nat} {reply : MyMsgBuf T} {pc pc' : Pc}
    (h : afterReply call reply pc = some pc') : pc ≠ .idle := by
  rintro rfl
  cases h

/-- A thread that goes on without an answer. -/
theorem afterReply_failed {s s' : System T} {tid : Int} {pc : Pc} (hs : Threads s)
    (hholder : s'.holder = s.holder) (hshm : s'.shm = s.shm) (hseen : s'.seen = s.seen)
    (hpc : afterReply 0 { emptyMsg T with request := msgFail } (s.pcs tid) = some pc) :
    PcOk s' tid pc := by
  have hfail : ¬ msgFail = msgSucc := by decide
  refine afterReply_ok (hs.pc tid) hholder hshm hseen ?_ ?_ hpc
  · intro c id _ hsucc
    exact absurd hsucc hfail
  · intro c id size recordNum _ _ hsucc
    exact absurd hsucc hfail

theorem threads_read {s : System T} {base : ClientSystem.System T} {tid : Int} {call : Nat}
    {m : Queued T} {pc : Pc} (hs : Inv s)
    (h : ClientSystem.step s.base (.read tid) = some (base, some (call, m)))
    (hpc : afterReply call m.msg (s.pcs tid) = some pc) :
    Threads ({ s with base := base }.setPc tid pc) := by
  obtain ⟨-, hexp, hnum, hmsg, hthreads⟩ := hs
  have hown : m.call = call := reads_own hexp h call m rfl
  cases step_eq_some h with
  | @read _ tgid _ _ rest hwait hread =>
  obtain ⟨hm, -, -⟩ := readMessage_some hread
  have hreturning : Returning s.base m := Or.inr (Or.inr hm)
  have hwaits : Waits s tid call := ⟨tgid, hwait⟩
  obtain ⟨a, hask, hcall⟩ := hthreads.waiting tid call hwaits
  have hanswered := hmsg.answered m hreturning
  refine hthreads.leave rfl ?_ (List.Subset.refl _) rfl (fun _ _ => Iff.rfl) ?_ ?_ ?_
  · rintro x ⟨⟩
    rfl
  · intro x hx id size op _ hx'
    rw [← hown] at hwaits
    exact hnum.not_requested hreturning hx (hx'.unique hwaits)
  · rintro ⟨⟩
  · refine afterReply_ok (hthreads.pc tid) rfl rfl rfl ?_ ?_ hpc
    · intro c id hinfo hsucc info hreply
      rw [hinfo] at hask
      cases hask
      exact hanswered.info id (by rw [hown]; exact hcall) hsucc info hreply
    · intro c id size recordNum hsending hop hsucc
      have hok := hthreads.pc tid
      rw [hsending] at hask hok
      cases hask
      rw [hop] at hcall
      have hsome := hanswered.get id size recordNum (by rw [hown]; exact hcall) hsucc
      rw [hown] at hsome
      obtain ⟨v, hv⟩ := Option.isSome_iff_exists.mp hsome
      rw [hv, hok.2.2.2 call v hwaits hv]

theorem threads_unlock {s : System T} {tid : Int} (hs : Threads s)
    (hpc : s.pcs tid = .unlocking) : Threads ((s.release tid).setPc tid .idle) := by
  have hask : (s.pcs tid).ask = none := by
    rw [hpc]
    rfl
  have hidle := hs.not_waiting hask
  refine hs.leave (c := s.base.clients tid) (Function.update_eq_self tid s.base.clients).symm
    ?_ (List.Subset.refl _) rfl ?_ (fun m _ _ _ _ _ => hidle m.call) (fun _ => rfl) ?_
  · rintro ⟨tgid, call⟩ hx
    cases call with
    | none => rfl
    | some n => exact absurd ⟨tgid, hx⟩ (hidle n)
  · intro tid' hne
    exact release_holder.trans (and_iff_right hne)
  · intro hold
    exact (release_holder.mp hold).1 rfl

theorem threads_step {s s' : System T} {e : Event T} {o : Output} (hs : Inv s)
    (hguard : Guarded s e) (h : Step s e s' o) : Threads s' := by
  have hthreads := hs.threads
  cases h with
  | @start tid tgid base o h =>
    cases step_eq_some h with
    | start htid htgid hfree =>
    have hidle := hthreads.alive tid hfree
    refine hthreads.leave rfl ?_ (List.Subset.refl _) rfl (fun _ _ => Iff.rfl) ?_ (fun _ => rfl) ?_
    · rintro x ⟨⟩
      rfl
    · rintro m - id size op - ⟨tgid', hn⟩
      cases hfree.symm.trans hn
    · have hok := hthreads.pc tid
      rw [hidle] at hok
      exact hok
  | @die tid base o h =>
    cases step_eq_some h with
    | exit =>
    refine hthreads.leave rfl ?_ (List.Subset.refl _) rfl ?_ ?_ (fun _ => rfl) ?_
    · rintro x ⟨⟩
    · intro tid' hne
      exact release_holder.trans (and_iff_right hne)
    · intro m hm id size op hop hwait
      exact hguard ⟨m, hm, hwait, id, size, op, hop⟩
    · intro hold
      exact (release_holder.mp hold).1 rfl
  | @call tid id c x hpc halive hid =>
    have hok := hthreads.pc tid
    rw [hpc] at hok
    refine hthreads.setPc ?_ (hthreads.not_waiting (by rw [hpc]; rfl)) ?_
    · rw [halive]
      exact Option.some_ne_none x
    · exact ⟨hok, fun id' htarget => hguard id id' hid htarget⟩
  | send halive hask hmsg h => exact threads_send hs hask h
  | read h hpc => exact threads_read hs h hpc
  | lock hpc hfree => exact threads_lock hthreads hpc hfree
  | put hpc hptr hput => exact threads_put hthreads hpc hptr hput
  | unlock hpc => exact threads_unlock hthreads hpc
  | @notSent tid pc hidle hpc =>
    refine hthreads.setPc (hthreads.alive_of (afterReply_alive hpc)) ?_
      (afterReply_failed hthreads rfl rfl rfl hpc)
    rintro n ⟨tgid, hn⟩
    exact hidle tgid n hn
  | @notRead tid pc base o h hpc =>
    cases step_eq_some h with
    | abandon hwait =>
    refine hthreads.leave rfl ?_ (List.Subset.refl _) rfl (fun _ _ => Iff.rfl) ?_ ?_
      (afterReply_failed hthreads rfl rfl rfl hpc)
    · rintro x ⟨⟩
      rfl
    · intro m hm id size op hop hwait
      exact hguard ⟨m, hm, hwait, id, size, op, hop⟩
    · rintro ⟨⟩
  | openFails hpc => exact absurd hguard id
  | @copy tid _ size call _ value hpc hread =>
    have hok := hthreads.pc tid
    rw [hpc] at hok
    exact hthreads.setPc (hthreads.alive_of (by rw [hpc]; rintro ⟨⟩))
      (hthreads.not_waiting (by rw [hpc]; rfl)) hok.1
  | @putFails tid _ _ _ hpc =>
    have hok := hthreads.pc tid
    rw [hpc] at hok
    exact hthreads.setPc (hthreads.alive_of (by rw [hpc]; rintro ⟨⟩))
      (hthreads.not_waiting (by rw [hpc]; rfl)) hok.1
  | @copyFails tid _ _ hpc =>
    have hok := hthreads.pc tid
    rw [hpc] at hok
    exact hthreads.setPc (hthreads.alive_of (by rw [hpc]; rintro ⟨⟩))
      (hthreads.not_waiting (by rw [hpc]; rfl)) hok.1
  | process h hphase => exact (threads_process hs hguard h hphase).1
  | check h | reply h | clean h =>
    cases step_eq_some h <;> exact hthreads.server rfl (List.Subset.refl _) rfl

theorem inv_step {s s' : System T} {e : Event T} {o : Output} (hs : Inv s)
    (hguard : Guarded s e) (h : step s e = some (s', o)) : Inv s' := by
  have hstep := step_eq_some h
  obtain ⟨hwf, hexp, hnum⟩ := base_step hs hguard hstep
  exact ⟨hwf, hexp, hnum, messages_step hs hguard hstep, threads_step hs hguard hstep⟩

/-- What a reader copies is the record it asked for, and what the server stores is what the
writer passed. -/
theorem output_right {s s' : System T} {e : Event T} {o : Output} (hs : Inv s)
    (hguard : Guarded s e) (h : step s e = some (s', o)) : Right o := by
  cases step_eq_some h with
  | @copy tid _ size call _ value hpc hread =>
    have hok := hs.threads.pc tid
    rw [hpc] at hok
    obtain ⟨-, hval⟩ := Block.read_eq_some_iff.mp hread
    change s.seen call = some value.1
    rw [hok.2, hval]
    rfl
  | process hserved hphase => exact (threads_process hs hguard hserved hphase).2
  | start | die | call | send | read | lock | put | unlock | notSent | notRead | openFails
  | putFails | copyFails | check | reply | clean => trivial

theorem boot_inv (server : Configd T) : Inv (boot server) := by
  refine ⟨boot_wellFormed server, ?_, ⟨.nil, ?_, ?_⟩, ⟨?_, ?_, fun _ _ => rfl⟩,
    ⟨fun _ _ => rfl, ?_, fun tid => ?_, ?_⟩⟩
  · rintro tid tgid call ⟨⟩
  · rintro n ⟨⟩
  · rintro tid tgid n ⟨⟩
  · rintro m ⟨⟩
  · rintro m (hm | hm | hm) <;> cases hm
  · rintro tid n ⟨tgid, ⟨⟩⟩
  · rintro ⟨⟩
  · rintro m ⟨⟩

/-- In every guarded run, reads and writes see their own bytes only. -/
theorem exchanges_right {server : Configd T} {es : List (Event T)} {s' : System T}
    {os : List Output} (hguard : Along step Guarded (boot server) es)
    (hrun : run step (boot server) es = some (s', os)) : ∀ o ∈ os, Right o := by
  have hstep : ∀ (s : System T) e s' o,
      Inv s → Guarded s e → step s e = some (s', o) → Inv s' ∧ Right o := by
    intro s e s' o hs hg h
    exact ⟨inv_step hs hg h, output_right hs hg h⟩
  exact run_answers_mem hstep (boot_inv server) hguard hrun

/-- A thread up to the lock of a call that writes a record full of one byte. -/
def enterUpdate (tid : Int) (byte : UInt8) : List (Event sampleTables) :=
  [.start tid 90, .call tid ⟨3006, .update 0 (List.replicate 12 byte), none⟩,
   .act tid 0 (emptyMsg _), .process (emptyWorld _), .check, .reply 0, .act tid 0 (emptyMsg _)]

def sampleServer : Configd sampleTables := MsgParser.boot sampleRam sampleFlash

theorem not_pending {s : ClientSystem.System T} (hreq : s.requests = [])
    (hphase : s.phase = .reading) (hrep : s.replies = []) (tid tgid : Int) (m : Queued T) :
    ¬ Pending s tid tgid m := by
  intro h
  cases h with
  | requested h => simp [hreq] at h
  | processed h => simp [hphase] at h
  | sending h => simp [hphase] at h
  | replied h => simp [hrep] at h

theorem exchanges_right_update : ∃ s' os,
    run step (boot sampleServer) (enterUpdate 100 1 ++ [.act 100 0 (emptyMsg _),
      .act 100 0 (emptyMsg _), .act 100 0 (emptyMsg _), .process (emptyWorld _)]) =
        some (s', os) ∧ ∀ o ∈ os, Right o := by
  have hsome : (run step (boot sampleServer) (enterUpdate 100 1 ++
      [.act 100 0 (emptyMsg _), .act 100 0 (emptyMsg _), .act 100 0 (emptyMsg _),
       .process (emptyWorld _)])).isSome = true := rfl
  obtain ⟨⟨s', os⟩, hrun⟩ := Option.isSome_iff_exists.mp hsome
  refine ⟨s', os, hrun, exchanges_right ?_ hrun⟩
  refine ⟨trivial, ?_⟩
  rintro s o ⟨⟩
  refine ⟨?_, ?_⟩
  · rintro id id' ⟨⟩ ⟨⟩
    rfl
  rintro s o ⟨⟩
  refine ⟨fun _ x _ _ => not_pending rfl rfl rfl _ _, ?_⟩
  rintro s o ⟨⟩
  refine ⟨by show memoryUsed _ < 2 ^ 32; decide, ?_⟩
  rintro s o ⟨⟩
  refine ⟨trivial, ?_⟩
  rintro s o ⟨⟩
  refine ⟨trivial, ?_⟩
  rintro s o ⟨⟩
  refine ⟨?_, ?_⟩
  · rintro - x ⟨⟩ ⟨⟩
  rintro s o ⟨⟩
  refine ⟨fun hne => absurd rfl hne, ?_⟩
  rintro s o ⟨⟩
  refine ⟨fun hne => absurd rfl hne, ?_⟩
  rintro s o ⟨⟩
  refine ⟨fun _ x _ _ => not_pending rfl rfl rfl _ _, ?_⟩
  rintro s o ⟨⟩
  refine ⟨by show memoryUsed _ < 2 ^ 32; decide, ?_⟩
  rintro s o ⟨⟩
  trivial

/-- A writer dies with its request in the queue, and its record is stored with the bytes of
the next writer. -/
theorem exchange_mixed : ¬ ∀ (server : Configd sampleTables) (es : List (Event sampleTables))
    (s' : System sampleTables) (os : List Output),
    run step (boot server) es = some (s', os) → ∀ o ∈ os, Right o := by
  intro hclaim
  have hseen : (run step (boot sampleServer) (enterUpdate 100 1 ++ enterUpdate 101 2 ++
      [.act 100 0 (emptyMsg _), .act 100 0 (emptyMsg _), .act 100 0 (emptyMsg _), .die 100,
       .act 101 0 (emptyMsg _), .act 101 0 (emptyMsg _), .process (emptyWorld _)])).map
        (fun r => r.2.getLast?) =
      some (some (.stored (some (List.replicate 12 2)) (some (List.replicate 12 1)))) := rfl
  obtain ⟨⟨s', os⟩, hrun, hlast⟩ := Option.map_eq_some_iff.mp hseen
  obtain ⟨r, hstored, hpassed⟩ := hclaim _ _ s' os hrun _ (List.mem_of_getLast? hlast)
  rw [← hpassed] at hstored
  exact absurd hstored (by decide)

end ShmExchange
