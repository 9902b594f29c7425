import BoaGateway.MsgQueue

/-!
# Clients and server over the queues

`sendcmd` of the clients and `msg_handler` of the server as steps on two queues.
A client is a thread: it puts a request under the type of the server, and waits
for a message under its own id. It may end at any point, and its id may be given
to a later thread. A step without a result cannot be taken.
-/

namespace ClientSystem

open ByteBlocks MibTypes MibChain MsgParser MsgQueue

variable {T : Tables}

/-- A thread, and the call of `sendcmd` in which it waits for a reply. -/
structure Client where
  tgid : Int
  call : Option Nat
  deriving DecidableEq

/-- Where the server is in the loop of `msg_handler`. -/
inductive Phase (T : Tables) where
  | reading
  | processed (m : Queued T)
  | sending (m : Queued T)

structure System (T : Tables) where
  server : Configd T
  phase : Phase T
  requests : List (Queued T)
  replies : List (Queued T)
  clients : Int → Option Client
  /-- The number of calls so far; the next call gets it as its own number. -/
  calls : Nat

inductive Event (T : Tables) where
  | start (tid tgid : Int)
  | exit (tid : Int)
  /-- `sendcmd` up to the end of `send_message`. -/
  | send (tid : Int) (stamptime : Nat) (qbuf : MyMsgBuf T)
  /-- `read_message` returns a message. -/
  | read (tid : Int)
  /-- `read_message` fails. -/
  | abandon (tid : Int)
  /-- `read_message` and `msgProcess` of the server. -/
  | process (shm : Block T.shmSize) (world : World T)
  | check
  | reply (stamptime : Nat)
  /-- The reply queue stays full. -/
  | clean

def System.threads (s : System T) : Threads := fun tid => (s.clients tid).map (·.tgid)

def System.setClient (s : System T) (tid : Int) (c : Option Client) : System T :=
  { s with clients := Function.update s.clients tid c }

/-- What a call of `sendcmd` reads: its number and the message. -/
abbrev Received (T : Tables) := Nat × Queued T

def step (s : System T) : Event T → Option (System T × Option (Received T))
  | .start tid tgid =>
    if 0 < tid ∧ 0 < tgid ∧ s.clients tid = none then
      some (s.setClient tid (some { tgid := tgid, call := none }), none)
    else none
  | .exit tid => some (s.setClient tid none, none)
  | .send tid stamptime qbuf =>
    match s.clients tid with
    | some ⟨tgid, none⟩ =>
      let m := sendMessage msgConfigdPid tid tgid stamptime qbuf
      some ({ s.setClient tid (some { tgid := tgid, call := some s.calls }) with
        requests := s.requests ++ [{ call := s.calls, msg := m }]
        calls := s.calls + 1 }, none)
    | _ => none
  | .read tid =>
    match s.clients tid with
    | some ⟨tgid, some call⟩ =>
      (readMessage s.replies tid).map fun res =>
        ({ s.setClient tid (some { tgid := tgid, call := none }) with replies := res.2 },
          some (call, res.1))
    | _ => none
  | .abandon tid =>
    match s.clients tid with
    | some ⟨tgid, some _⟩ => some (s.setClient tid (some { tgid := tgid, call := none }), none)
    | _ => none
  | .process shm world =>
    match s.phase, readMessage s.requests msgConfigdPid with
    | .reading, some (m, rest) =>
      (serve s.server { shm := shm, world := world, msg := m.msg }).map fun res =>
        ({ s with
          server := res.1
          phase := .processed { call := m.call, msg := res.2 }
          requests := rest }, none)
    | _, _ => none
  | .check =>
    match s.phase with
    | .processed m =>
      if checkPidExist s.threads m.msg.mtype m.msg.tgid then
        some ({ s with phase := .sending m }, none)
      else some ({ s with phase := .reading }, none)
    | _ => none
  | .reply stamptime =>
    match s.phase with
    | .sending m =>
      if s.replies.length < maxMsgqMsgnum then
        let msg := sendMessage m.msg.mtype m.msg.request 0 stamptime m.msg
        some ({ s with
          phase := .reading, replies := s.replies ++ [{ call := m.call, msg := msg }] }, none)
      else none
    | _ => none
  | .clean =>
    match s.phase with
    | .sending _ =>
      if s.replies.length < maxMsgqMsgnum then none
      else
        (dropUnexistPidMessage true s.threads s.replies).map fun replies =>
          ({ s with replies := replies }, none)
    | _ => none

/-- What each step needs and does. -/
inductive Step (s : System T) : Event T → System T → Option (Received T) → Prop
  | start {tid tgid : Int} (htid : 0 < tid) (htgid : 0 < tgid)
      (hfree : s.clients tid = none) :
      Step s (.start tid tgid) (s.setClient tid (some ⟨tgid, none⟩)) none
  | exit {tid : Int} : Step s (.exit tid) (s.setClient tid none) none
  | send {tid tgid : Int} {stamptime : Nat} {qbuf : MyMsgBuf T}
      (hidle : s.clients tid = some ⟨tgid, none⟩) :
      Step s (.send tid stamptime qbuf)
        { s.setClient tid (some ⟨tgid, some s.calls⟩) with
          requests := s.requests ++
            [⟨s.calls, sendMessage msgConfigdPid tid tgid stamptime qbuf⟩]
          calls := s.calls + 1 } none
  | read {tid tgid : Int} {call : Nat} {m : Queued T} {rest : List (Queued T)}
      (hwait : s.clients tid = some ⟨tgid, some call⟩)
      (hread : readMessage s.replies tid = some (m, rest)) :
      Step s (.read tid) { s.setClient tid (some ⟨tgid, none⟩) with replies := rest }
        (some (call, m))
  | abandon {tid tgid : Int} {call : Nat} (hwait : s.clients tid = some ⟨tgid, some call⟩) :
      Step s (.abandon tid) (s.setClient tid (some ⟨tgid, none⟩)) none
  | process {shm : Block T.shmSize} {world : World T} {m : Queued T}
      {rest : List (Queued T)} {server : Configd T} {a : MyMsgBuf T}
      (hphase : s.phase = .reading)
      (hread : readMessage s.requests msgConfigdPid = some (m, rest))
      (hserve : serve s.server ⟨shm, world, m.msg⟩ = some (server, a)) :
      Step s (.process shm world)
        { s with server := server, phase := .processed ⟨m.call, a⟩, requests := rest } none
  | found {m : Queued T} (hphase : s.phase = .processed m)
      (hpid : checkPidExist s.threads m.msg.mtype m.msg.tgid = true) :
      Step s .check { s with phase := .sending m } none
  | gone {m : Queued T} (hphase : s.phase = .processed m) :
      Step s .check { s with phase := .reading } none
  | reply {stamptime : Nat} {m : Queued T} (hphase : s.phase = .sending m)
      (hroom : s.replies.length < maxMsgqMsgnum) :
      Step s (.reply stamptime)
        { s with
          phase := .reading
          replies := s.replies ++
            [⟨m.call, sendMessage m.msg.mtype m.msg.request 0 stamptime m.msg⟩] } none
  | clean {m : Queued T} {replies : List (Queued T)} (hphase : s.phase = .sending m)
      (hclean : dropUnexistPidMessage true s.threads s.replies = some replies) :
      Step s .clean { s with replies := replies } none

theorem step_eq_some {s s' : System T} {e : Event T} {o : Option (Received T)}
    (h : step s e = some (s', o)) : Step s e s' o := by
  cases e with
  | start tid tgid =>
    simp only [step] at h
    split at h
    · rename_i hguard
      cases h
      exact .start hguard.1 hguard.2.1 hguard.2.2
    · cases h
  | exit tid =>
    cases h
    exact .exit
  | send tid stamptime qbuf =>
    simp only [step] at h
    split at h
    · rename_i tgid hidle
      cases h
      exact .send hidle
    · cases h
  | read tid =>
    simp only [step] at h
    split at h
    · rename_i tgid call hwait
      obtain ⟨⟨m, rest⟩, hread, he⟩ := Option.map_eq_some_iff.mp h
      cases he
      exact .read hwait hread
    · cases h
  | abandon tid =>
    simp only [step] at h
    split at h
    · rename_i tgid call hwait
      cases h
      exact .abandon hwait
    · cases h
  | process shm world =>
    simp only [step] at h
    split at h
    · rename_i m rest hphase hread
      obtain ⟨⟨server, a⟩, hserve, he⟩ := Option.map_eq_some_iff.mp h
      cases he
      exact .process hphase hread hserve
    · cases h
  | check =>
    simp only [step] at h
    split at h
    · rename_i m hphase
      split at h
      · rename_i hpid
        cases h
        exact .found hphase hpid
      · cases h
        exact .gone hphase
    · cases h
  | reply stamptime =>
    simp only [step] at h
    split at h
    · rename_i m hphase
      split at h
      · rename_i hroom
        cases h
        exact .reply hphase hroom
      · cases h
    · cases h
  | clean =>
    simp only [step] at h
    split at h
    · rename_i m hphase
      split at h
      · cases h
      · obtain ⟨replies, hclean, he⟩ := Option.map_eq_some_iff.mp h
        cases he
        exact .clean hphase hclean
    · cases h

theorem setClient_self (s : System T) (tid : Int) (c : Option Client) :
    (s.setClient tid c).clients tid = c := Function.update_self ..

theorem setClient_other (s : System T) {tid tid' : Int} (h : tid' ≠ tid) (c : Option Client) :
    (s.setClient tid c).clients tid' = s.clients tid' := Function.update_of_ne h ..

/-- Before the first client starts. -/
def boot (server : Configd T) : System T where
  server := server
  phase := .reading
  requests := []
  replies := []
  clients := fun _ => none
  calls := 0

/-- An answer keeps the type and the thread group of the message it comes from. -/
def KeepsHeader (q : MyMsgBuf T) (res : Option (Configd T × MyMsgBuf T)) : Prop :=
  ∀ s' a, res = some (s', a) → a.mtype = q.mtype ∧ a.tgid = q.tgid

theorem KeepsHeader.none (q : MyMsgBuf T) : KeepsHeader q none := by
  rintro s' a ⟨⟩

theorem KeepsHeader.some {q a : MyMsgBuf T} (hmtype : a.mtype = q.mtype)
    (htgid : a.tgid = q.tgid) (s : Configd T) : KeepsHeader q (some (s, a)) := by
  rintro s' a' ⟨⟩
  exact ⟨hmtype, htgid⟩

theorem KeepsHeader.map {α : Type*} {q : MyMsgBuf T} {f : α → Configd T × MyMsgBuf T}
    (hf : ∀ x, (f x).2.mtype = q.mtype ∧ (f x).2.tgid = q.tgid) (o : Option α) :
    KeepsHeader q (o.map f) := by
  intro s' a h
  obtain ⟨x, -, he⟩ := Option.map_eq_some_iff.mp h
  have hx := hf x
  rw [he] at hx
  exact hx

theorem KeepsHeader.bind {α : Type*} {q : MyMsgBuf T} {o : Option α}
    {f : α → Option (Configd T × MyMsgBuf T)} (hf : ∀ x, KeepsHeader q (f x)) :
    KeepsHeader q (o.bind f) := by
  intro s' a h
  obtain ⟨x, -, hx⟩ := Option.bind_eq_some_iff.mp h
  exact hf x s' a hx

theorem KeepsHeader.unlessLocked {h : Handler T} {s : Configd T} {q : MyMsgBuf T}
    (hh : KeepsHeader q (h s q)) : KeepsHeader q (unlessLocked h s q) := by
  unfold MsgParser.unlessLocked
  split
  · exact .some rfl rfl s
  · exact hh

theorem withRam_header (s : Configd T) (q : MyMsgBuf T) (res : Option (Bool × Ram T)) :
    KeepsHeader q (withRam s q res) := by
  refine .map ?_ _
  exact fun _ => ⟨rfl, rfl⟩

theorem withText_header (s : Configd T) (q : MyMsgBuf T) (data : Bytes) :
    KeepsHeader q (withText s q data) := by
  refine .map ?_ _
  exact fun _ => ⟨rfl, rfl⟩

theorem withShm_header (s : Configd T) (q : MyMsgBuf T) (data : Bytes) :
    KeepsHeader q (withShm s q data) := by
  refine .map ?_ _
  exact fun _ => ⟨rfl, rfl⟩

theorem withValue_header (s : Configd T) (q : MyMsgBuf T) (value : Option (Option Bytes)) :
    KeepsHeader q (withValue s q value) := by
  unfold withValue
  split
  · exact .none q
  · exact .some rfl rfl s
  · exact withText_header s q _

theorem updateEx_header (s : Configd T) (q : MyMsgBuf T) :
    KeepsHeader q (cfgMibUpdateEx s q) := by
  refine .map ?_ _
  exact fun _ => ⟨rfl, rfl⟩

theorem updateSession_header (s : Configd T) (q : MyMsgBuf T) :
    KeepsHeader q (cfgUpdatePPPoESession s q) := by
  refine .unlessLocked ?_
  split
  · refine .map ?_ _
    exact fun _ => ⟨rfl, rfl⟩
  · exact .none q

theorem reload_header (s : Configd T) (q : MyMsgBuf T) : KeepsHeader q (cfgMibReload s q) :=
  .unlessLocked (withRam_header s q _)

theorem mibSwap_header (s : Configd T) (q : MyMsgBuf T) : KeepsHeader q (cfgMibSwap s q) :=
  .unlessLocked (withRam_header s q _)

theorem mibSet_header (s : Configd T) (q : MyMsgBuf T) : KeepsHeader q (cfgMibSet s q) :=
  .unlessLocked (withRam_header s q _)

theorem chainAdd_header (s : Configd T) (q : MyMsgBuf T) : KeepsHeader q (cfgChainAdd s q) :=
  .unlessLocked (withRam_header s q _)

theorem chainDelete_header (s : Configd T) (q : MyMsgBuf T) : KeepsHeader q (cfgChainDelete s q) :=
  .unlessLocked (withRam_header s q _)

theorem chainClear_header (s : Configd T) (q : MyMsgBuf T) : KeepsHeader q (cfgChainClear s q) :=
  .unlessLocked (.some rfl rfl _)

theorem toDefault_header (action : MibDefault.DefaultAction) (s : Configd T) (q : MyMsgBuf T) :
    KeepsHeader q (toDefault action s q) := by
  refine .unlessLocked (.map ?_ _)
  exact fun _ => ⟨rfl, rfl⟩

theorem readToRaw_header (s : Configd T) (q : MyMsgBuf T) :
    KeepsHeader q (cfgMibReadToRaw s q) := by
  unfold cfgMibReadToRaw
  split
  · exact .some rfl rfl s
  split
  · exact .some rfl rfl s
  · exact withShm_header s q _

theorem readHeader_header (s : Configd T) (q : MyMsgBuf T) :
    KeepsHeader q (cfgMibReadHeader s q) := by
  unfold cfgMibReadHeader
  split
  · exact .some rfl rfl s
  · exact withText_header s q _

theorem update_header (s : Configd T) (q : MyMsgBuf T) : KeepsHeader q (cfgMibUpdate s q) := by
  unfold cfgMibUpdate
  split
  · split
    · exact updateEx_header s q
    · exact .some rfl rfl s
  · exact updateEx_header s q

theorem mibInfoId_header (s : Configd T) (q : MyMsgBuf T) : KeepsHeader q (cfgMibInfoId s q) := by
  unfold cfgMibInfoId
  split
  · exact .some rfl rfl s
  · exact .some rfl rfl s

theorem mibInfoIndex_header (s : Configd T) (q : MyMsgBuf T) :
    KeepsHeader q (cfgMibInfoIndex s q) := by
  unfold cfgMibInfoIndex
  split
  · exact .some rfl rfl s
  split
  · exact .none q
  · exact .some rfl rfl s

theorem backup_header (s : Configd T) (q : MyMsgBuf T) : KeepsHeader q (cfgMibBackup s q) := by
  unfold cfgMibBackup
  dsimp only
  split
  · refine .map ?_ _
    exact fun _ => ⟨rfl, rfl⟩
  · exact .some rfl rfl _

theorem restore_header (s : Configd T) (q : MyMsgBuf T) : KeepsHeader q (cfgMibRestore s q) := by
  unfold cfgMibRestore
  dsimp only
  split
  · refine .map ?_ _
    exact fun _ => ⟨rfl, rfl⟩
  · exact .some rfl rfl _

theorem chainGet_header (s : Configd T) (q : MyMsgBuf T) : KeepsHeader q (cfgChainGet s q) := by
  unfold cfgChainGet
  split
  · exact .some rfl rfl s
  split
  · exact .some rfl rfl s
  split
  · exact .none q
  · exact withShm_header s q _

theorem chainBackupGet_header (s : Configd T) (q : MyMsgBuf T) :
    KeepsHeader q (cfgChainBackupGet s q) := by
  unfold cfgChainBackupGet
  split
  · exact .some rfl rfl s
  split
  · exact .some rfl rfl s
  split
  · exact .none q
  split
  · exact .none q
  · exact .some rfl rfl s
  split
  · exact .none q
  · exact withShm_header s q _

theorem chainGetDef_header (s : Configd T) (q : MyMsgBuf T) :
    KeepsHeader q (cfgChainGetDef s q) := by
  unfold cfgChainGetDef
  split
  · exact .none q
  · exact .some rfl rfl s
  · exact withShm_header s q _

theorem chainUpdate_header (s : Configd T) (q : MyMsgBuf T) :
    KeepsHeader q (cfgChainUpdate s q) := by
  refine .unlessLocked ?_
  split
  · exact .some rfl rfl s
  split
  · exact .some rfl rfl s
  split
  · exact .none q
  · refine .map ?_ _
    exact fun _ => ⟨rfl, rfl⟩

theorem chainSwap_header (s : Configd T) (q : MyMsgBuf T) :
    KeepsHeader q (cfgChainSwap s q) := by
  refine .unlessLocked ?_
  dsimp only
  split
  · exact .some rfl rfl s
  split
  · split
    · refine .map ?_ _
      exact fun _ => ⟨rfl, rfl⟩
    · exact .some rfl rfl _
  · exact .some rfl rfl s

theorem chainInfoId_header (s : Configd T) (q : MyMsgBuf T) :
    KeepsHeader q (cfgChainInfoId s q) := by
  unfold cfgChainInfoId
  split
  · exact .some rfl rfl s
  · exact .some rfl rfl s

theorem chainInfoIndex_header (s : Configd T) (q : MyMsgBuf T) :
    KeepsHeader q (cfgChainInfoIndex s q) := by
  unfold cfgChainInfoIndex
  split
  · exact .some rfl rfl s
  split
  · exact .none q
  · exact .some rfl rfl s

theorem chainInfoName_header (s : Configd T) (q : MyMsgBuf T) :
    KeepsHeader q (cfgChainInfoName s q) := by
  unfold cfgChainInfoName
  dsimp only
  split
  · exact .some rfl rfl s
  · exact .some rfl rfl s

theorem chainRecordDesc_header (s : Configd T) (q : MyMsgBuf T) :
    KeepsHeader q (cfgChainRecordDesc s q) := by
  unfold cfgChainRecordDesc
  split
  · exact .some rfl rfl s
  split
  · exact .none q
  · exact withShm_header s { q with arg1 := _ } _

theorem reboot_header (s : Configd T) (q : MyMsgBuf T) : KeepsHeader q (cfgReboot s q) := by
  unfold cfgReboot
  split
  · exact .some rfl rfl _
  · exact .some rfl rfl s

theorem mibSetPPPoE_header (s : Configd T) (q : MyMsgBuf T) :
    KeepsHeader q (cfgMibSetPPPoE s q) := by
  refine .unlessLocked ?_
  iterate 8 refine .bind fun _ => ?_
  exact .some rfl rfl _

theorem func_header (c : Command) (s : Configd T) (q : MyMsgBuf T) :
    KeepsHeader q (c.func s q) := by
  cases c with
  | mibLock | mibUnlock | mibInfoTotal | chainTotal | checkDesc | upload | checkImage
  | stopDelegation | getPdPrefixLen => exact .some rfl rfl _
  | mibUpdateFromRaw | mibGetDefault | mibRetriveTable | mibRetriveChain =>
    refine .map ?_ _
    exact fun _ => ⟨rfl, rfl⟩
  | mibReload => exact reload_header s q
  | mibSwap => exact mibSwap_header s q
  | mibSet => exact mibSet_header s q
  | chainAdd => exact chainAdd_header s q
  | chainDelete => exact chainDelete_header s q
  | chainClear => exact chainClear_header s q
  | mibToDefault => exact toDefault_header .toMemory s q
  | mibFlashToDefault => exact toDefault_header .toAll s q
  | mibGet | mibBackupGet => exact withValue_header s q _
  | getPdPrefixIp => exact withText_header s q _
  | mibReadToRaw => exact readToRaw_header s q
  | mibReadHeader => exact readHeader_header s q
  | mibUpdate => exact update_header s q
  | mibInfoId => exact mibInfoId_header s q
  | mibInfoIndex => exact mibInfoIndex_header s q
  | mibBackup => exact backup_header s q
  | mibRestore => exact restore_header s q
  | chainGet => exact chainGet_header s q
  | mibChainBackupGet => exact chainBackupGet_header s q
  | mibChainGetDefault => exact chainGetDef_header s q
  | chainUpdate => exact chainUpdate_header s q
  | chainSwap => exact chainSwap_header s q
  | chainInfoId => exact chainInfoId_header s q
  | chainInfoIndex => exact chainInfoIndex_header s q
  | chainInfoName => exact chainInfoName_header s q
  | chainGetRecordDesc => exact chainRecordDesc_header s q
  | reboot => exact reboot_header s q
  | updatePppoeSession => exact updateSession_header s q
  | mibSavePppoe => exact mibSetPPPoE_header s q

end ClientSystem
