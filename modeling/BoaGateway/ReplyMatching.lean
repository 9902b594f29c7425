import BoaGateway.ClientSystem
import BoaGateway.ReplyCleanup

/-!
# Replies reach the call they answer

A reply carries no number, only the id of the thread it is for. What an earlier
call under the same id has left behind is read by the next call. When no call
starts with such a leftover on its way, every call reads the answer to its own
request.
-/

namespace ReplyMatching

open ByteBlocks RequestRuns MibTypes MibChain MibContent MsgParser MsgQueue ReplyCleanup ClientSystem

variable {T : Tables}

/-- The message can reach thread `tid` of group `tgid`. -/
inductive Pending (s : System T) (tid tgid : Int) (m : Queued T) : Prop
  | requested (h : m ∈ s.requests) (hreq : m.msg.request = tid) (htgid : m.msg.tgid = tgid)
  | processed (h : s.phase = .processed m) (hmtype : m.msg.mtype = tid)
      (htgid : m.msg.tgid = tgid)
  | sending (h : s.phase = .sending m) (hmtype : m.msg.mtype = tid)
  | replied (h : m ∈ s.replies) (hmtype : m.msg.mtype = tid)

/-- No call starts while something is pending for its thread. -/
def Fresh (s : System T) : Event T → Prop
  | .send tid _ _ => ∀ c, s.clients tid = some c → ∀ m, ¬ Pending s tid c.tgid m
  | _ => True

/-- A message of a client. -/
structure IsRequest (m : Queued T) : Prop where
  request : 0 < m.msg.request
  tgid : 0 < m.msg.tgid

/-- What holds of the queues whatever happens. -/
structure WellFormed (s : System T) : Prop where
  clients : ∀ tid c, s.clients tid = some c → 0 < tid ∧ 0 < c.tgid
  requests : ∀ m ∈ s.requests, IsRequest m
  processed : ∀ m, s.phase = .processed m → 0 < m.msg.mtype ∧ 0 < m.msg.tgid
  sending : ∀ m, s.phase = .sending m → 0 < m.msg.mtype
  replies : ∀ m ∈ s.replies, IsReply m
  room : s.replies.length ≤ maxMsgqMsgnum

/-- A waiting thread can only be reached by its own call. -/
def Expected (s : System T) : Prop :=
  ∀ tid tgid call, s.clients tid = some ⟨tgid, some call⟩ →
    ∀ m, Pending s tid tgid m → m.call = call

/-- A call that reads a message reads the answer to its own request. -/
def ReadsOwn (o : Option (Received T)) : Prop :=
  ∀ call m, o = some (call, m) → m.call = call

/-- What the server makes of a request goes to the thread that sent it. -/
theorem serve_header {s s' : Configd T} {q : Request T} {a : MyMsgBuf T}
    (h : serve s q = some (s', a)) : a.mtype = q.msg.request ∧ a.tgid = q.msg.tgid := by
  cases hcmd : lookup q.msg.cmd with
  | none =>
    rw [serve_unknown hcmd] at h
    cases h
    exact ⟨rfl, rfl⟩
  | some c =>
    rw [serve_of_lookup hcmd] at h
    exact func_header c _ _ s' a h

theorem WellFormed.setClient {s : System T} (hs : WellFormed s) {tid : Int} {c : Option Client}
    (hc : ∀ x, c = some x → 0 < tid ∧ 0 < x.tgid) : WellFormed (s.setClient tid c) := by
  refine ⟨fun tid' x hx => ?_, hs.requests, hs.processed, hs.sending, hs.replies, hs.room⟩
  by_cases h : tid' = tid
  · subst h
    rw [setClient_self] at hx
    exact hc x hx
  · rw [setClient_other s h] at hx
    exact hs.clients tid' x hx

theorem wellFormed_step {s s' : System T} {e : Event T} {o : Option (Received T)}
    (hs : WellFormed s) (h : step s e = some (s', o)) : WellFormed s' := by
  cases step_eq_some h with
  | start htid htgid hfree =>
    refine hs.setClient ?_
    rintro x ⟨⟩
    exact ⟨htid, htgid⟩
  | exit =>
    refine hs.setClient ?_
    rintro x ⟨⟩
  | send hidle =>
    obtain ⟨htid, htgid⟩ := hs.clients _ _ hidle
    have hset := hs.setClient (c := some ⟨_, some s.calls⟩) (by
      rintro x ⟨⟩
      exact ⟨htid, htgid⟩)
    refine ⟨hset.clients, fun m hm => ?_, hs.processed, hs.sending, hs.replies, hs.room⟩
    rcases List.mem_append.mp hm with hm | hm
    · exact hs.requests m hm
    · rw [List.mem_singleton.mp hm]
      exact ⟨htid, htgid⟩
  | read hwait hread =>
    obtain ⟨-, -, hrest⟩ := readMessage_some hread
    have hset := hs.setClient (c := some ⟨_, none⟩) (by
      rintro x ⟨⟩
      exact hs.clients _ ⟨_, some _⟩ hwait)
    exact ⟨hset.clients, hs.requests, hs.processed, hs.sending,
      fun m hm => hs.replies m (hrest.subset hm), hrest.length_le.trans hs.room⟩
  | abandon hwait =>
    refine hs.setClient ?_
    rintro x ⟨⟩
    exact hs.clients _ ⟨_, some _⟩ hwait
  | process hphase hread hserve =>
    obtain ⟨hm, -, hrest⟩ := readMessage_some hread
    obtain ⟨hmtype, htgid⟩ := serve_header hserve
    have hreq := hs.requests _ hm
    refine ⟨hs.clients, fun x hx => hs.requests x (hrest.subset hx), ?_, ?_, hs.replies,
      hs.room⟩
    · rintro x ⟨⟩
      exact ⟨hmtype ▸ hreq.request, htgid ▸ hreq.tgid⟩
    · rintro x ⟨⟩
  | found hphase hpid =>
    refine ⟨hs.clients, hs.requests, ?_, ?_, hs.replies, hs.room⟩
    · rintro x ⟨⟩
    · rintro x ⟨⟩
      exact (hs.processed _ hphase).1
  | gone hphase =>
    refine ⟨hs.clients, hs.requests, ?_, ?_, hs.replies, hs.room⟩
    · rintro x ⟨⟩
    · rintro x ⟨⟩
  | reply hphase hroom =>
    refine ⟨hs.clients, hs.requests, ?_, ?_, fun x hx => ?_, ?_⟩
    · rintro x ⟨⟩
    · rintro x ⟨⟩
    · rcases List.mem_append.mp hx with hx | hx
      · exact hs.replies x hx
      · rw [List.mem_singleton.mp hx]
        exact ⟨(hs.sending _ hphase :), rfl⟩
    · rw [List.length_append]
      exact hroom
  | clean hphase hclean =>
    have hkept := dropUnexist_sublist hs.room hs.replies hclean
    exact ⟨hs.clients, hs.requests, hs.processed, hs.sending,
      fun x hx => hs.replies x (hkept.subset hx), hkept.length_le.trans hs.room⟩

theorem Pending.mono {s s' : System T} {tid tgid : Int} {m : Queued T}
    (h : Pending s' tid tgid m) (hreq : s'.requests ⊆ s.requests)
    (hphase : s'.phase = s.phase ∨ s'.phase = .reading) (hrep : s'.replies ⊆ s.replies) :
    Pending s tid tgid m := by
  cases h with
  | requested h hr htgid => exact .requested (hreq h) hr htgid
  | processed h hmtype htgid =>
    rcases hphase with hp | hp
    · exact .processed (hp.symm.trans h) hmtype htgid
    · rw [hp] at h
      cases h
  | sending h hmtype =>
    rcases hphase with hp | hp
    · exact .sending (hp.symm.trans h) hmtype
    · rw [hp] at h
      cases h
  | replied h hmtype => exact .replied (hrep h) hmtype

/-- The thread a message can reach after a step is one it could reach before, unless the
step is the call that sends it. -/
theorem pending_step {s s' : System T} {e : Event T} {o : Option (Received T)}
    (hs : WellFormed s) (h : step s e = some (s', o)) {tid tgid : Int} {call : Nat}
    (hc : s'.clients tid = some ⟨tgid, some call⟩) {m : Queued T}
    (hm : Pending s' tid tgid m) :
    (∃ m₀, Pending s tid tgid m₀ ∧ m₀.call = m.call) ∨
      ((∃ stamptime qbuf, e = .send tid stamptime qbuf) ∧ m.call = s.calls) := by
  cases step_eq_some h with
  | start | exit | abandon =>
    exact Or.inl ⟨m, hm.mono (.refl _) (Or.inl rfl) (.refl _), rfl⟩
  | @send tid' tgid' stamptime qbuf hidle =>
    cases hm with
    | requested h hreq htgid =>
      rcases List.mem_append.mp h with h | h
      · exact Or.inl ⟨m, .requested h hreq htgid, rfl⟩
      · rw [List.mem_singleton.mp h] at hreq ⊢
        obtain rfl : tid' = tid := hreq
        exact Or.inr ⟨⟨_, _, rfl⟩, rfl⟩
    | processed h hmtype htgid => exact Or.inl ⟨m, .processed h hmtype htgid, rfl⟩
    | sending h hmtype => exact Or.inl ⟨m, .sending h hmtype, rfl⟩
    | replied h hmtype => exact Or.inl ⟨m, .replied h hmtype, rfl⟩
  | read hwait hread =>
    obtain ⟨-, -, hrest⟩ := readMessage_some hread
    exact Or.inl ⟨m, hm.mono (.refl _) (Or.inl rfl) hrest.subset, rfl⟩
  | process hphase hread hserve =>
    obtain ⟨hmem, -, hrest⟩ := readMessage_some hread
    obtain ⟨hheader, hgroup⟩ := serve_header hserve
    cases hm with
    | requested h hreq htgid => exact Or.inl ⟨m, .requested (hrest.subset h) hreq htgid, rfl⟩
    | processed h hmtype htgid =>
      cases h
      have hreq := hheader.symm.trans hmtype
      exact Or.inl ⟨_, .requested hmem hreq (hgroup.symm.trans htgid), rfl⟩
    | sending h hmtype => cases h
    | replied h hmtype => exact Or.inl ⟨m, .replied h hmtype, rfl⟩
  | found hphase hpid =>
    cases hm with
    | requested h hreq htgid => exact Or.inl ⟨m, .requested h hreq htgid, rfl⟩
    | processed h hmtype htgid => cases h
    | sending h hmtype =>
      -- the reader was found in the group that the request came from
      cases h
      obtain ⟨hpos, hgpos⟩ := hs.processed _ hphase
      have hthread := (checkPidExist_iff hpos hgpos).mp hpid
      have hclient : s.threads m.msg.mtype = some tgid := by
        rw [hmtype]
        exact congrArg (Option.map Client.tgid) hc
      have htgid : m.msg.tgid = tgid := Option.some.inj (hthread.symm.trans hclient)
      exact Or.inl ⟨m, .processed hphase hmtype htgid, rfl⟩
    | replied h hmtype => exact Or.inl ⟨m, .replied h hmtype, rfl⟩
  | gone hphase => exact Or.inl ⟨m, hm.mono (.refl _) (Or.inr rfl) (.refl _), rfl⟩
  | reply hphase hroom =>
    cases hm with
    | requested h hreq htgid => exact Or.inl ⟨m, .requested h hreq htgid, rfl⟩
    | processed h hmtype htgid => cases h
    | sending h hmtype => cases h
    | replied h hmtype =>
      rcases List.mem_append.mp h with h | h
      · exact Or.inl ⟨m, .replied h hmtype, rfl⟩
      · rw [List.mem_singleton.mp h] at hmtype ⊢
        exact Or.inl ⟨_, .sending hphase hmtype, rfl⟩
  | clean hphase hclean =>
    have hkept := dropUnexist_sublist hs.room hs.replies hclean
    exact Or.inl ⟨m, hm.mono (.refl _) (Or.inl rfl) hkept.subset, rfl⟩

/-- A waiting thread has waited before, unless the step is its call. -/
theorem waiting_step {s s' : System T} {e : Event T} {o : Option (Received T)}
    (h : step s e = some (s', o)) {tid tgid : Int} {call : Nat}
    (hc : s'.clients tid = some ⟨tgid, some call⟩) :
    s.clients tid = some ⟨tgid, some call⟩ ∨
      ((∃ stamptime qbuf, e = .send tid stamptime qbuf) ∧
        s.clients tid = some ⟨tgid, none⟩ ∧ call = s.calls) := by
  have hset : ∀ {tid' : Int} {c : Option Client}, (∀ x, c = some x → x.call = none) →
      (s.setClient tid' c).clients tid = some ⟨tgid, some call⟩ →
      s.clients tid = some ⟨tgid, some call⟩ := by
    intro tid' c hnone hclient
    by_cases htid : tid = tid'
    · subst htid
      rw [setClient_self] at hclient
      cases hnone _ hclient
    · rwa [setClient_other s htid] at hclient
  cases step_eq_some h with
  | start | read | abandon =>
    refine Or.inl (hset ?_ hc)
    rintro x ⟨⟩
    rfl
  | exit =>
    refine Or.inl (hset ?_ hc)
    rintro x ⟨⟩
  | @send tid' tgid' stamptime qbuf hidle =>
    by_cases htid : tid = tid'
    · subst htid
      have hclient := (setClient_self s tid (some ⟨tgid', some s.calls⟩)).symm.trans hc
      cases hclient
      exact Or.inr ⟨⟨_, _, rfl⟩, hidle, rfl⟩
    · exact Or.inl ((setClient_other s htid _).symm.trans hc)
  | process | found | gone | reply | clean => exact Or.inl hc

/-- A fresh call keeps every waiting thread to its own call. -/
theorem expected_step {s s' : System T} {e : Event T} {o : Option (Received T)}
    (hs : WellFormed s) (hexp : Expected s) (hfresh : Fresh s e)
    (h : step s e = some (s', o)) : Expected s' := by
  intro tid tgid call hc m hm
  rcases waiting_step h hc with hold | ⟨⟨stamptime, qbuf, rfl⟩, hidle, rfl⟩
  · rcases pending_step hs h hc hm with ⟨m₀, hm₀, hcall⟩ | ⟨⟨stamptime, qbuf, rfl⟩, -⟩
    · rw [← hcall]
      exact hexp tid tgid call hold m₀ hm₀
    · -- a thread that waits does not send
      simp only [step, hold] at h
      cases h
  · rcases pending_step hs h hc hm with ⟨m₀, hm₀, -⟩ | ⟨-, hcall⟩
    · exact absurd hm₀ (hfresh _ hidle m₀)
    · exact hcall

/-- What a call reads was pending for its thread. -/
theorem reads_own {s s' : System T} {e : Event T} {o : Option (Received T)}
    (hexp : Expected s) (h : step s e = some (s', o)) : ReadsOwn o := by
  rintro call m rfl
  cases step_eq_some h with
  | read hwait hread =>
    obtain ⟨hm, hmtype, -⟩ := readMessage_some hread
    exact hexp _ _ _ hwait m (.replied hm hmtype)

theorem boot_wellFormed (server : Configd T) : WellFormed (ClientSystem.boot server) := by
  refine ⟨?_, ?_, ?_, ?_, ?_, Nat.zero_le _⟩
  · rintro tid c ⟨⟩
  · rintro m ⟨⟩
  · rintro m ⟨⟩
  · rintro m ⟨⟩
  · rintro m ⟨⟩

/-- In every run whose calls are fresh, every call reads the answer to its own request. -/
theorem replies_match {server : Configd T} {es : List (Event T)} {s' : System T}
    {os : List (Option (Received T))}
    (hfresh : Along step Fresh (ClientSystem.boot server) es)
    (hrun : run step (ClientSystem.boot server) es = some (s', os)) : ∀ o ∈ os, ReadsOwn o := by
  have hstep : ∀ (s : System T) (e : Event T) (t : System T) (o : Option (Received T)),
      WellFormed s ∧ Expected s → Fresh s e → step s e = some (t, o) →
        (WellFormed t ∧ Expected t) ∧ ReadsOwn o := by
    rintro s e t o ⟨hs, hexp⟩ hf h
    exact ⟨⟨wellFormed_step hs h, expected_step hs hexp hf h⟩, reads_own hexp h⟩
  have hinit : Expected (ClientSystem.boot server) := by
    rintro tid tgid call ⟨⟩
  exact run_answers_mem hstep ⟨boot_wellFormed server, hinit⟩ hfresh hrun

/-- One call of thread 100: a request with an empty text, and the way of its reply. -/
def callEvents (cmd : Int) : List (Event sampleTables) :=
  [.start 100 90, .send 100 0 { emptyMsg sampleTables with cmd := cmd },
   .process (Block.zeros _) (emptyWorld _), .check, .reply 0]

theorem replies_match_call :
    ∃ s' os, run step (ClientSystem.boot (MsgParser.boot sampleRam sampleFlash))
        (callEvents 1 ++ [.read 100]) = some (s', os) ∧ ∀ o ∈ os, ReadsOwn o := by
  have hsome : (run step (ClientSystem.boot (MsgParser.boot sampleRam sampleFlash))
      (callEvents 1 ++ [.read 100])).isSome = true := rfl
  have hfresh : Along step Fresh (ClientSystem.boot (MsgParser.boot sampleRam sampleFlash))
      (callEvents 1 ++ [.read 100]) := by
    refine ⟨trivial, fun s o hstart => ⟨?_, fun _ _ _ => ⟨trivial, fun _ _ _ =>
      ⟨trivial, fun _ _ _ => ⟨trivial, fun _ _ _ => ⟨trivial, fun _ _ _ => trivial⟩⟩⟩⟩⟩⟩
    have hs : s.requests = [] ∧ s.phase = .reading ∧ s.replies = [] := by
      cases hstart
      exact ⟨rfl, rfl, rfl⟩
    rintro c - m hm
    cases hm with
    | requested h => simp [hs.1] at h
    | processed h => simp [hs.2.1] at h
    | sending h => simp [hs.2.1] at h
    | replied h => simp [hs.2.2] at h
  obtain ⟨⟨s', os⟩, hrun⟩ := Option.isSome_iff_exists.mp hsome
  exact ⟨s', os, hrun, replies_match hfresh hrun⟩

/-- Thread 100 ends before it reads, and the next thread of this id gets its reply. -/
theorem stale_reply :
    ¬ ∀ (server : Configd sampleTables) (es : List (Event sampleTables))
      (s' : System sampleTables) (os : List (Option (Received sampleTables))),
      run step (ClientSystem.boot server) es = some (s', os) → ∀ o ∈ os, ReadsOwn o := by
  intro hclaim
  have hseen : (run step (ClientSystem.boot (MsgParser.boot sampleRam sampleFlash))
      (callEvents 1 ++ [.exit 100, .start 100 90, .send 100 1 (emptyMsg _), .read 100])).map
        (fun res => res.2.map (Option.map fun r => (r.1, r.2.call))) =
      some [none, none, none, none, none, none, none, none, some (1, 0)] := rfl
  obtain ⟨⟨s', os⟩, hrun, hos⟩ := Option.map_eq_some_iff.mp hseen
  have hmem : some (1, 0) ∈ os.map (Option.map fun r => (r.1, r.2.call)) := by
    rw [hos]
    decide
  obtain ⟨o, ho, he⟩ := List.mem_map.mp hmem
  obtain ⟨⟨call, m⟩, rfl, hm⟩ := Option.map_eq_some_iff.mp he
  have hown : m.call = call := hclaim _ _ s' os hrun _ ho call m rfl
  obtain ⟨hcall, hstale⟩ := Prod.mk.inj hm
  dsimp only at hcall hstale
  omega

end ReplyMatching
