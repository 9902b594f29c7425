import BoaGateway.BlockedRequests
import Mathlib.Data.List.Perm.Subperm

/-!
# The main loop

The server owns a fixed number of request objects. A round of its loop takes blocked requests off
their list, lets the handlers of all ready requests run, and accepts connections when no request
is ready. A handler works on its own request and on what is outside the lists; which list the
request goes to is decided by what the handler returns. The handlers are parameters, and so are
the time, what `select` finds and what `accept` returns.
-/

namespace MainLoop

open DoublyLinked BlockedRequests

/-- What a handler leaves: its request, and what is outside the lists. -/
structure Outcome where
  request : Request
  closed : List Int
  connections : Int
  gUpgradeFirmware : Bool
  upgradeFile : Bool

def after (a : Addr) (o : Outcome) (s : State) : State :=
  { s with
    data := Function.update s.data a o.request
    closed := o.closed
    connections := o.connections
    gUpgradeFirmware := o.gUpgradeFirmware
    upgradeFile := o.upgradeFile }

structure Handlers where
  reqFlush : Addr → State → Outcome
  readHeader : Addr → State → Outcome × Int
  readBody : Addr → State → Outcome × Int
  writeBody : Addr → State → Outcome × Int
  processGet : Addr → State → Outcome × Int
  readFromPipe : Addr → State → Outcome × Int
  writeFromPipe : Addr → State → Outcome × Int
  sendRError : Addr → State → Outcome

/-- The first half of a round of `process_requests`, with `retval`. -/
def dispatch (h : Handlers) (a : Addr) (s : State) : State × Int :=
  if (s.data a).bufferEnd ≠ 0 then
    let s' := after a (h.reqFlush a s) s
    (s', if (s'.data a).status = .close then 0 else 1)
  else
    let handled (r : Outcome × Int) := (after a r.1 s, r.2)
    match (s.data a).status with
    | .readHeader | .oneCr | .oneLf | .twoCr => handled (h.readHeader a s)
    | .bodyRead => handled (h.readBody a s)
    | .bodyWrite => handled (h.writeBody a s)
    | .write => handled (h.processGet a s)
    | .pipeRead => handled (h.readFromPipe a s)
    | .pipeWrite => handled (h.writeFromPipe a s)
    | .close | .reboot | .lanipChange => (s, 0)

def blockRequest (a : Addr) (s : State) : State :=
  fdSet (awaited (s.data a)) (enqueue .block a (dequeue .ready a s))

/-- `if(list_head_addr) dequeue(list_head_addr, req)` -/
def dequeueFrom (list : Option Queue) (a : Addr) (s : State) : State :=
  match list with
  | none => s
  | some q => dequeue q a s

/-- `free_request`, for a connection that is not kept alive: none is, in a server with pages. -/
def freeRequestOf (list : Option Queue) (a : Addr) (s : State) : State :=
  if (s.data a).bufferEnd ≠ 0 then s
  else
    enqueue .free a
      (freePost a (closeConnection a (fdClr (awaited (s.data a)) (dequeueFrom list a s))))

/-- The second half of a round of `process_requests`. With `wizard` a request that would block is
freed instead. -/
def settle (h : Handlers) (wizard : Bool) (now : Int) (a : Addr) (retval : Int) (s : State) :
    State :=
  if retval = -1 then
    if wizard = true then freeRequestOf (some .ready) a s else blockRequest a s
  else if retval = 0 then freeRequestOf (some .ready) a s
  else if retval = 1 then modify a (fun r => { r with timeLast := now }) s
  else freeRequestOf (some .ready) a (after a (h.sendRError a s) s)

/-- The loop of `process_requests`, of so many rounds at most, with the requests that it serves
and what their handlers return. -/
def processRequests (h : Handlers) (wizard : Bool) (now : Int) :
    Nat → Option Addr → State → Option (State × List (Addr × Int))
  | _, none, s => some (s, [])
  | 0, some _, _ => none
  | n + 1, some a, s =>
    let (s', retval) := dispatch h a s
    let next := s'.links.next a
    (processRequests h wizard now n next (settle h wizard now a retval s')).map fun r =>
      (r.1, (a, retval) :: r.2)

/-- The memory of a request that is set to zero. -/
def zeroRequest : Request where
  status := .readHeader
  bufferEnd := 0
  fd := 0
  dataFd := 0
  postDataFd := 0
  postFileName := false
  kacount := 0
  timeLast := 0
  logline := false
  responseStatus := 0

def newRequest (s : State) : Option (Addr × State) :=
  match s.head .free with
  | none => none
  | some a => some (a, modify a (fun _ => zeroRequest) (dequeue .free a s))

/-- What becomes of a connection: `accept` fails, or the own address of the socket is not found. -/
inductive Accepted where
  | failed
  | unnamed (fd : Int)
  | accepted (fd : Int)
  deriving DecidableEq

/-- A request for a connection, behind the label `error`. -/
def dropRequest (a : Addr) (fd : Int) (s : State) : State :=
  let s' := freeRequestOf none a s
  if 0 ≤ fd then closeFd fd s' else s'

def getSockRequest (maxConnections now : Int) (r : Accepted) (s : State) : State :=
  if maxConnections ≠ -1 ∧ maxConnections ≤ s.connections then s
  else
    match newRequest s with
    | none => s
    | some (a, s) =>
      let connected (fd : Int) :=
        modify a (fun r => { r with fd := fd, status := .readHeader, timeLast := now }) s
      match r with
      | .failed => dropRequest a (-1) s
      | .unnamed fd => dropRequest a fd (connected fd)
      | .accepted fd =>
        enqueue .block a { connected fd with connections := s.connections + 1 }

/-- The settings of a server. -/
structure Settings where
  kaTimeout : Int
  maxConnections : Int

/-- What a round of the main loop finds. -/
structure Events where
  now : Int
  wizard : Bool
  handlers : Handlers
  /-- The sets that `select` leaves. -/
  selected : Side × Int → Bool
  connections : List Accepted

/-- A round of the main loop, its two loops of so many rounds at most, with the requests that it
serves. -/
def round (cfg : Settings) (n : Nat) (e : Events) (s : State) :
    Option (State × List (Addr × Int)) :=
  match fdsetUpdate cfg.kaTimeout e.now n (s.head .block) s with
  | none => none
  | some (s, _) =>
    match s.head .ready with
    | some a =>
      (processRequests e.handlers e.wizard e.now n (some a) s).map fun r =>
        ({ r.1 with fds := fun _ => false }, r.2)
    | none =>
      some (e.connections.foldl (fun s r => getSockRequest cfg.maxConnections e.now r s)
        { s with fds := e.selected }, [])

def rounds (cfg : Settings) (n : Nat) : List Events → State → Option State
  | [], s => some s
  | e :: es, s => (round cfg n e s).bind fun r => rounds cfg n es r.1

/-- The loop of `init_free_requests`; the objects are numbered as they are allocated. -/
def initFreeRequests : Nat → State → State
  | 0, s => s
  | n + 1, s => enqueue .free n (initFreeRequests n s)

/-- The state before there are requests, with what is in the memory. -/
def blank (data : Addr → Request) (fds : Side × Int → Bool) : State where
  data := data
  links := { next := fun _ => none, prev := fun _ => none }
  head := fun _ => none
  fds := fds
  closed := []
  connections := 0
  errors := 0
  gUpgradeFirmware := false
  upgradeFile := false

variable {s s' : State} {lists lists' : Queue → List Addr} {a : Addr} {front back : List Addr}
  {h : Handlers} {wizard : Bool} {now : Int} {n : Nat} {cfg : Settings}

/-- The lists have the same pointers and heads. -/
def SameLists (s s' : State) : Prop := s'.links = s.links ∧ s'.head = s.head

theorem SameLists.trans {s'' : State} (h : SameLists s s') (h' : SameLists s' s'') :
    SameLists s s'' := ⟨h'.1.trans h.1, h'.2.trans h.2⟩

theorem SameLists.keeps (h : SameLists s s') (hlists : Lists s.links s.head lists) :
    Lists s'.links s'.head lists := by
  rw [h.1, h.2]
  exact hlists

theorem SameLists.dequeue (h : SameLists s s') (q : Queue) (a : Addr) :
    SameLists (dequeue q a s) (dequeue q a s') := by
  obtain ⟨hlinks, hhead⟩ := h
  constructor
  · simp only [BlockedRequests.dequeue, hlinks]
  · simp only [BlockedRequests.dequeue, hlinks, hhead]

theorem SameLists.enqueue (h : SameLists s s') (q : Queue) (a : Addr) :
    SameLists (enqueue q a s) (enqueue q a s') := by
  obtain ⟨hlinks, hhead⟩ := h
  constructor
  · simp only [BlockedRequests.enqueue, hlinks, hhead]
  · simp only [BlockedRequests.enqueue, hhead]

/-- A request that a list is left without and another one has in front. -/
theorem lists_move (hlists : Lists s.links s.head lists) {q₀ q : Queue}
    (hq₀ : lists q₀ = front ++ a :: back) (hne : q ≠ q₀) :
    Lists (enqueue q a (dequeue q₀ a s)).links (enqueue q a (dequeue q₀ a s)).head
      (Function.update (Function.update lists q₀ (front ++ back)) q (a :: lists q)) := by
  obtain ⟨hunlinked, hnot⟩ := hlists.unlink hq₀
  have hother : Function.update lists q₀ (front ++ back) q = lists q :=
    Function.update_of_ne hne _ _
  have hpushed := hunlinked.push hnot (q := q)
  rwa [hother] at hpushed

/-- A request stays in its list or goes to another one. -/
def Goes (q₀ q : Queue) (a : Addr) (s s' : State) : Prop :=
  q = q₀ ∧ SameLists s s' ∨ q ≠ q₀ ∧ SameLists (enqueue q a (dequeue q₀ a s)) s'

theorem Goes.keeps {q₀ q : Queue} (hgoes : Goes q₀ q a s s') (hlists : Lists s.links s.head lists)
    (hq₀ : lists q₀ = front ++ a :: back) :
    ∃ lists', Lists s'.links s'.head lists' ∧
      lists' q₀ = front ++ (if q = q₀ then [a] else []) ++ back ∧
      ∀ q', q' ≠ q₀ → lists' q' = (if q = q' then [a] else []) ++ lists q' := by
  rcases hgoes with ⟨rfl, hsame⟩ | ⟨hne, hsame⟩
  · refine ⟨lists, hsame.keeps hlists, ?_, fun q' hq' => ?_⟩
    · rw [if_pos rfl, hq₀, List.append_assoc, List.singleton_append]
    · rw [if_neg hq'.symm, List.nil_append]
  · refine ⟨_, hsame.keeps (lists_move hlists hq₀ hne), ?_, fun q' hq' => ?_⟩
    · rw [Function.update_of_ne hne.symm, Function.update_self, if_neg hne, List.append_nil]
    · by_cases hqq : q = q'
      · rw [if_pos hqq, ← hqq, Function.update_self, List.singleton_append]
      · rw [if_neg hqq, Function.update_of_ne (Ne.symm hqq), Function.update_of_ne hq',
          List.nil_append]

theorem dispatch_same (h : Handlers) (a : Addr) (s : State) :
    SameLists s (dispatch h a s).1 ∧
      ∀ b, b ≠ a → (dispatch h a s).1.data b = s.data b := by
  have hafter (o : Outcome) :
      SameLists s (after a o s) ∧ ∀ b, b ≠ a → (after a o s).data b = s.data b :=
    ⟨⟨rfl, rfl⟩, fun b hb => Function.update_of_ne hb _ _⟩
  unfold dispatch
  split
  · exact hafter _
  · dsimp only
    cases (s.data a).status with
    | close => exact ⟨⟨rfl, rfl⟩, fun _ _ => rfl⟩
    | reboot => exact ⟨⟨rfl, rfl⟩, fun _ _ => rfl⟩
    | lanipChange => exact ⟨⟨rfl, rfl⟩, fun _ _ => rfl⟩
    | _ => exact hafter _

theorem freePost_buffer (a : Addr) (s : State) :
    ((freePost a s).data a).bufferEnd = (s.data a).bufferEnd := by
  unfold freePost
  split
  · split
    · simp [BlockedRequests.modify, closeFd]
    · rfl
  · split
    · rfl
    · rfl

theorem closeConnection_buffer (a : Addr) (s : State) :
    ((closeConnection a s).data a).bufferEnd = (s.data a).bufferEnd := by
  have hdata : (closeSocket (s.data a) (countError (s.data a) (closeFile (s.data a) s))).data =
      s.data := by
    unfold closeSocket countError closeFile
    split
    all_goals
      split
      all_goals
        split
        · rfl
        · rfl
  simp [closeConnection, BlockedRequests.modify, hdata]

theorem dequeueFrom_data (list : Option Queue) (a : Addr) (s : State) :
    (dequeueFrom list a s).data = s.data := by
  cases list with
  | none => rfl
  | some q => rfl

/-- A request that has no output is freed. -/
theorem freeRequestOf_free (list : Option Queue) (hbuffer : (s.data a).bufferEnd = 0) :
    SameLists (enqueue .free a (dequeueFrom list a s)) (freeRequestOf list a s) ∧
      ((freeRequestOf list a s).data a).bufferEnd = (s.data a).bufferEnd ∧
      ∀ b, b ≠ a → (freeRequestOf list a s).data b = s.data b := by
  have hclose := closeConnection_ended a (fdClr (awaited (s.data a)) (dequeueFrom list a s))
  have hpost :=
    freePost_ended a (closeConnection a (fdClr (awaited (s.data a)) (dequeueFrom list a s)))
  have hended := hclose.1.trans hpost
  have hsame : SameLists (dequeueFrom list a s)
      (freePost a (closeConnection a (fdClr (awaited (s.data a)) (dequeueFrom list a s)))) :=
    ⟨hended.links, hended.head⟩
  have hdata : (fdClr (awaited (s.data a)) (dequeueFrom list a s)).data = s.data :=
    dequeueFrom_data list a s
  rw [freeRequestOf, if_neg (not_not.mpr hbuffer)]
  refine ⟨hsame.enqueue .free a, ?_, fun b hb => ?_⟩
  · have hkept := (freePost_buffer a _).trans (closeConnection_buffer a
      (fdClr (awaited (s.data a)) (dequeueFrom list a s)))
    rw [hdata] at hkept
    exact hkept
  · have hkept := hended.data b hb
    rw [hdata] at hkept
    exact hkept

/-- Where a request is after its round. -/
def place (wizard : Bool) (retval : Int) (bufferEnd : Nat) : Queue :=
  if retval = 1 then .ready
  else if retval = -1 ∧ wizard = false then .block
  else if bufferEnd = 0 then .free
  else .ready

/-- A request that is done with is freed as long as it has no output. -/
theorem freeRequestOf_goes (a : Addr) (s : State) :
    Goes .ready (if ((freeRequestOf (some .ready) a s).data a).bufferEnd = 0 then .free else .ready)
        a s (freeRequestOf (some .ready) a s) ∧
      ∀ b, b ≠ a → (freeRequestOf (some .ready) a s).data b = s.data b := by
  by_cases hbuffer : (s.data a).bufferEnd = 0
  · obtain ⟨hsame, hkept, hdata⟩ := freeRequestOf_free (some .ready) hbuffer
    rw [if_pos (hkept.trans hbuffer)]
    exact ⟨Or.inr ⟨nofun, hsame⟩, hdata⟩
  · have hstays : freeRequestOf (some .ready) a s = s := if_pos hbuffer
    rw [hstays, if_neg hbuffer]
    exact ⟨Or.inl ⟨rfl, rfl, rfl⟩, fun _ _ => rfl⟩

theorem settle_goes (h : Handlers) (wizard : Bool) (now : Int) (a : Addr) (retval : Int)
    (s : State) :
    Goes .ready (place wizard retval ((settle h wizard now a retval s).data a).bufferEnd) a s
        (settle h wizard now a retval s) ∧
      ∀ b, b ≠ a → (settle h wizard now a retval s).data b = s.data b := by
  have hfree := freeRequestOf_goes a s
  by_cases hblocked : retval = -1
  · subst hblocked
    cases wizard with
    | true => simpa [settle, place] using hfree
    | false =>
      have hplace (k : Nat) : place false (-1) k = .block := by simp [place]
      rw [hplace]
      exact ⟨Or.inr ⟨nofun, rfl, rfl⟩, fun _ _ => rfl⟩
  by_cases hdone : retval = 0
  · subst hdone
    simpa [settle, place] using hfree
  by_cases hmore : retval = 1
  · subst hmore
    have hsettle : settle h wizard now a 1 s = modify a (fun r => { r with timeLast := now }) s :=
      rfl
    rw [hsettle]
    exact ⟨Or.inl ⟨rfl, rfl, rfl⟩, fun b hb => Function.update_of_ne hb _ _⟩
  · have hsettle : settle h wizard now a retval s =
        freeRequestOf (some .ready) a (after a (h.sendRError a s) s) := by
      simp [settle, hblocked, hdone, hmore]
    have hplace (k : Nat) : place wizard retval k = if k = 0 then .free else .ready := by
      simp [place, hblocked, hmore]
    obtain ⟨hgoes, hdata⟩ := freeRequestOf_goes a (after a (h.sendRError a s) s)
    rw [hsettle, hplace]
    refine ⟨hgoes, fun b hb => (hdata b hb).trans ?_⟩
    exact Function.update_of_ne hb _ _

/-- The requests of a pass that end in a list, in the order of the pass. -/
def sent (wizard : Bool) (s : State) (q : Queue) (trace : List (Addr × Int)) : List Addr :=
  (trace.filter fun p => place wizard p.2 (s.data p.1).bufferEnd = q).map Prod.fst

/-- What a pass has done from a state on, for the requests that it was still to serve. -/
structure Served (wizard : Bool) (s s' : State) (front todo : List Addr) (trace : List (Addr × Int))
    (lists lists' : Queue → List Addr) : Prop where
  visited : trace.map Prod.fst = todo
  queues : Lists s'.links s'.head lists'
  ready : lists' .ready = front ++ sent wizard s' .ready trace
  moved : ∀ q, q ≠ .ready → lists' q = (sent wizard s' q trace).reverse ++ lists q
  others : ∀ a, a ∉ todo → s'.data a = s.data a

theorem sent_cons (wizard : Bool) (s : State) (q : Queue) (p : Addr × Int)
    (trace : List (Addr × Int)) : sent wizard s q (p :: trace) =
      (if place wizard p.2 (s.data p.1).bufferEnd = q then [p.1] else []) ++
        sent wizard s q trace := by
  unfold sent
  rw [List.filter_cons]
  simp only [decide_eq_true_eq]
  split
  · rfl
  · rfl

theorem processRequests_serves (h : Handlers) (wizard : Bool) (now : Int) {todo : List Addr}
    (hqueues : Lists s.links s.head lists) (hready : lists .ready = front ++ todo) :
    ∃ s' trace lists', (∀ n, todo.length ≤ n →
      processRequests h wizard now n todo.head? s = some (s', trace)) ∧
        Served wizard s s' front todo trace lists lists' := by
  induction todo generalizing s lists front with
  | nil =>
    refine ⟨s, [], lists, fun n _ => by cases n <;> rfl, rfl, hqueues, ?_, fun _ _ => rfl,
      fun _ _ => rfl⟩
    exact hready
  | cons a todo ih =>
    obtain ⟨hsame, hdata⟩ := dispatch_same h a s
    rcases hdispatch : dispatch h a s with ⟨s₁, retval⟩
    rw [hdispatch] at hsame hdata
    have hqueues₁ : Lists s₁.links s₁.head lists := hsame.keeps hqueues
    have hlinked := hqueues₁.linked .ready
    have hnodup := hqueues₁.nodup .ready
    rw [hready] at hlinked hnodup
    have hnext : s₁.links.next a = todo.head? := hlinked.beside.2
    have hnot : a ∉ todo := (List.nodup_cons.mp (List.nodup_append.mp hnodup).2.1).1
    obtain ⟨hgoes, hkept⟩ := settle_goes h wizard now a retval s₁
    obtain ⟨lists₂, hqueues₂, hready₂, hmoved₂⟩ := hgoes.keeps hqueues₁ hready
    obtain ⟨s', trace, lists', hrun, hserved⟩ := ih hqueues₂ hready₂
    have hstays : s'.data a = (settle h wizard now a retval s₁).data a := hserved.others a hnot
    refine ⟨s', (a, retval) :: trace, lists', fun n hn => ?_, ?_, hserved.queues, ?_,
      fun q hq => ?_, fun b hb => ?_⟩
    · obtain ⟨n, rfl⟩ := Nat.exists_eq_add_one_of_ne_zero (Nat.ne_of_gt (Nat.lt_of_lt_of_le
        (Nat.succ_pos _) hn))
      rw [List.head?_cons, processRequests, hdispatch]
      dsimp only
      rw [hnext, hrun n (Nat.le_of_succ_le_succ hn), Option.map_some]
    · rw [List.map_cons, hserved.visited]
    · rw [hserved.ready, sent_cons, hstays, List.append_assoc]
    · rw [hserved.moved q hq, hmoved₂ q hq, sent_cons, hstays, List.reverse_append,
        List.append_assoc]
      congr 2
      split
      · rfl
      · rfl
    · obtain ⟨hba, hb⟩ := not_or.mp (List.mem_cons.not.mp hb)
      exact (hserved.others b hb).trans ((hkept b hba).trans (hdata b hba))

/-- The objects `0`, …, `n - 1` are in the lists, each in one of them and once. -/
structure Held (n : Nat) (s : State) (lists : Queue → List Addr) : Prop where
  queues : Lists s.links s.head lists
  all : ∀ a, (∃ q, a ∈ lists q) ↔ a < n

theorem Held.length_le (h : Held n s lists) (q : Queue) : (lists q).length ≤ n := by
  have hsub : lists q ⊆ List.range n := fun a ha => List.mem_range.mpr ((h.all a).mp ⟨q, ha⟩)
  have hle := (List.subperm_of_subset (h.queues.nodup q) hsub).length_le
  rwa [List.length_range] at hle

theorem Held.same (h : Held n s lists) (hsame : SameLists s s') : Held n s' lists :=
  ⟨hsame.keeps h.queues, h.all⟩

/-- The members of the lists stay when one goes to the front of another list. -/
theorem members_move {q₀ q : Queue} (hq₀ : lists q₀ = front ++ a :: back)
    (hq₀' : lists' q₀ = front ++ (if q = q₀ then [a] else []) ++ back)
    (hother : ∀ q', q' ≠ q₀ → lists' q' = (if q = q' then [a] else []) ++ lists q') (b : Addr) :
    (∃ q, b ∈ lists' q) ↔ ∃ q, b ∈ lists q := by
  constructor
  · rintro ⟨q', hb⟩
    by_cases hq' : q' = q₀
    · refine ⟨q₀, ?_⟩
      rw [hq', hq₀'] at hb
      rw [hq₀]
      split at hb
      · simpa using hb
      · simp only [List.append_nil, List.mem_append] at hb
        rcases hb with hb | hb
        · exact List.mem_append_left _ hb
        · exact List.mem_append_right _ (List.mem_cons_of_mem a hb)
    · rw [hother q' hq'] at hb
      rcases List.mem_append.mp hb with hb | hb
      · refine ⟨q₀, ?_⟩
        split at hb
        · rw [hq₀, List.mem_singleton.mp hb]
          exact List.mem_append_right _ List.mem_cons_self
        · cases hb
      · exact ⟨q', hb⟩
  · rintro ⟨q', hb⟩
    by_cases hba : b = a
    · refine ⟨q, ?_⟩
      by_cases hq : q = q₀
      · rw [hq, hq₀', if_pos hq, hba]
        simp
      · rw [hother q hq, if_pos rfl, hba]
        exact List.mem_append_left _ List.mem_cons_self
    · by_cases hq' : q' = q₀
      · refine ⟨q₀, ?_⟩
        rw [hq', hq₀] at hb
        rw [hq₀']
        rcases List.mem_append.mp hb with hb | hb
        · exact List.mem_append_left _ (List.mem_append_left _ hb)
        · exact List.mem_append_right _ ((List.mem_cons.mp hb).resolve_left hba)
      · refine ⟨q', ?_⟩
        rw [hother q' hq']
        exact List.mem_append_right _ hb

/-- The walk along the blocked requests keeps all objects. -/
theorem fdsetUpdate_held (kaTimeout now : Int) {n : Nat} {todo : List Addr}
    (hheld : Held n s lists) (hblock : lists .block = front ++ todo) :
    ∃ s' lists', (∀ k, todo.length ≤ k →
      fdsetUpdate kaTimeout now k todo.head? s = some (s', todo)) ∧ Held n s' lists' := by
  induction todo generalizing s lists front with
  | nil => exact ⟨s, lists, fun k _ => by cases k <;> rfl, hheld⟩
  | cons a todo ih =>
    have hlinked := hheld.queues.linked .block
    rw [hblock] at hlinked
    have hnext : s.links.next a = todo.head? := hlinked.beside.2
    have hvisited : ∃ lists₁,
        Lists (visit kaTimeout now a s).links (visit kaTimeout now a s).head lists₁ ∧
          lists₁ .block = front ++ (if fate kaTimeout now s a = .block then [a] else []) ++ todo ∧
          ∀ q, q ≠ .block → lists₁ q = (if fate kaTimeout now s a = q then [a] else []) ++ lists q :=
      visit_lists hheld.queues hblock
    obtain ⟨lists₁, hqueues₁, hblock₁, hmoved₁⟩ := hvisited
    have hheld₁ : Held n (visit kaTimeout now a s) lists₁ :=
      ⟨hqueues₁, fun b => (members_move hblock hblock₁ hmoved₁ b).trans (hheld.all b)⟩
    obtain ⟨s', lists', hrun, hheld'⟩ := ih hheld₁ hblock₁
    refine ⟨s', lists', fun k hk => ?_, hheld'⟩
    obtain ⟨k, rfl⟩ := Nat.exists_eq_add_one_of_ne_zero (Nat.ne_of_gt (Nat.lt_of_lt_of_le
      (Nat.succ_pos _) hk))
    rw [List.head?_cons, fdsetUpdate, hnext, hrun k (Nat.le_of_succ_le_succ hk), Option.map_some]

theorem mem_sent {q : Queue} {trace : List (Addr × Int)} :
    a ∈ sent wizard s q trace ↔
      ∃ v, (a, v) ∈ trace ∧ place wizard v (s.data a).bufferEnd = q := by
  unfold sent
  rw [List.mem_map]
  constructor
  · rintro ⟨⟨b, v⟩, hmem, rfl⟩
    rw [List.mem_filter] at hmem
    exact ⟨v, hmem.1, by simpa using hmem.2⟩
  · rintro ⟨v, hmem, hplace⟩
    exact ⟨(a, v), List.mem_filter.mpr ⟨hmem, by simpa using hplace⟩, rfl⟩

/-- A request that was served is where the result of its handler says. -/
theorem Served.placed {todo : List Addr} {trace : List (Addr × Int)} {p : Addr × Int}
    (h : Served wizard s s' front todo trace lists lists') (hp : p ∈ trace) :
    p.1 ∈ lists' (place wizard p.2 (s'.data p.1).bufferEnd) := by
  have hsent : p.1 ∈ sent wizard s' (place wizard p.2 (s'.data p.1).bufferEnd) trace :=
    mem_sent.mpr ⟨p.2, hp, rfl⟩
  by_cases hready : place wizard p.2 (s'.data p.1).bufferEnd = .ready
  · rw [hready] at hsent
    rw [hready, h.ready]
    exact List.mem_append_right _ hsent
  · rw [h.moved _ hready]
    exact List.mem_append_left _ (List.mem_reverse.mpr hsent)

theorem Served.all {trace : List (Addr × Int)}
    (h : Served wizard s s' [] (lists .ready) trace lists lists') (b : Addr) :
    (∃ q, b ∈ lists' q) ↔ ∃ q, b ∈ lists q := by
  have hsent {q : Queue} (hb : b ∈ sent wizard s' q trace) : b ∈ lists .ready := by
    obtain ⟨v, hmem, -⟩ := mem_sent.mp hb
    rw [← h.visited]
    exact List.mem_map.mpr ⟨(b, v), hmem, rfl⟩
  constructor
  · rintro ⟨q, hb⟩
    by_cases hq : q = .ready
    · rw [hq, h.ready, List.nil_append] at hb
      exact ⟨.ready, hsent hb⟩
    · rw [h.moved q hq] at hb
      rcases List.mem_append.mp hb with hb | hb
      · exact ⟨.ready, hsent (List.mem_reverse.mp hb)⟩
      · exact ⟨q, hb⟩
  · rintro ⟨q, hb⟩
    by_cases hq : q = .ready
    · rw [hq, ← h.visited] at hb
      obtain ⟨p, hp, rfl⟩ := List.mem_map.mp hb
      exact ⟨_, h.placed hp⟩
    · refine ⟨q, ?_⟩
      rw [h.moved q hq]
      exact List.mem_append_right _ hb

theorem processRequests_held (h : Handlers) (wizard : Bool) (now : Int) (hheld : Held n s lists) :
    ∃ s' trace lists', processRequests h wizard now n (s.head .ready) s = some (s', trace) ∧
      Served wizard s s' [] (lists .ready) trace lists lists' ∧ Held n s' lists' := by
  obtain ⟨s', trace, lists', hrun, hserved⟩ :=
    processRequests_serves h wizard now hheld.queues (List.nil_append (lists .ready)).symm
  have hrun := hrun n (hheld.length_le .ready)
  rw [← (hheld.queues.linked .ready).head] at hrun
  exact ⟨s', trace, lists', hrun, hserved, hserved.queues,
    fun b => (hserved.all b).trans (hheld.all b)⟩

/-- An object that is taken from the free ones and put in front of a list. -/
theorem take_put (hheld : Held n s lists) (hfree : s.head .free = some a) (q : Queue)
    (hsame : SameLists (enqueue q a (dequeue .free a s)) s') :
    ∃ lists', Held n s' lists' := by
  obtain ⟨rest, hrest⟩ : ∃ rest, lists .free = a :: rest := by
    have hhead := (hheld.queues.linked .free).head
    rw [hfree] at hhead
    exact List.head?_eq_some_iff.mp hhead.symm
  have hfront : lists .free = [] ++ a :: rest := hrest
  by_cases hq : q = .free
  · subst hq
    obtain ⟨hunlinked, hnot⟩ := hheld.queues.unlink hfront
    have hpushed := hunlinked.push hnot (q := .free)
    have hback : Function.update (Function.update lists .free ([] ++ rest)) .free
        (a :: Function.update lists .free ([] ++ rest) .free) = lists := by
      rw [Function.update_self, Function.update_idem, List.nil_append, ← hrest,
        Function.update_eq_self]
    rw [hback] at hpushed
    exact ⟨lists, hsame.keeps hpushed, hheld.all⟩
  · have hgoes : Goes .free q a s s' := Or.inr ⟨hq, hsame⟩
    obtain ⟨lists', hqueues, hfree', hother⟩ := hgoes.keeps hheld.queues hfront
    exact ⟨lists', hqueues, fun b => (members_move hfront hfree' hother b).trans (hheld.all b)⟩

theorem dropRequest_same (fd : Int) (hbuffer : (s.data a).bufferEnd = 0) :
    SameLists (enqueue .free a s) (dropRequest a fd s) := by
  have hfree := (freeRequestOf_free none hbuffer).1
  unfold dropRequest
  dsimp only
  split
  · exact hfree
  · exact hfree

theorem getSockRequest_held (maxConnections now : Int) (r : Accepted) (hheld : Held n s lists) :
    ∃ lists', Held n (getSockRequest maxConnections now r s) lists' := by
  unfold getSockRequest newRequest
  split
  · exact ⟨lists, hheld⟩
  · cases hfree : s.head .free with
    | none => exact ⟨lists, hheld⟩
    | some a =>
      dsimp only
      have hzero (fd : Int) (f : Request → Request) (hf : (f zeroRequest).bufferEnd = 0) :
          SameLists (enqueue .free a (dequeue .free a s)) (dropRequest a fd (modify a f
            (modify a (fun _ => zeroRequest) (dequeue .free a s)))) := by
        refine SameLists.trans ?_ (dropRequest_same fd ?_)
        · exact ⟨rfl, rfl⟩
        · simpa [BlockedRequests.modify] using hf
      cases r with
      | failed =>
        refine take_put hheld hfree .free (SameLists.trans ?_ (dropRequest_same (-1) ?_))
        · exact ⟨rfl, rfl⟩
        · simp [BlockedRequests.modify, zeroRequest]
      | unnamed fd => exact take_put hheld hfree .free (hzero fd _ rfl)
      | accepted fd => exact take_put hheld hfree .block ⟨rfl, rfl⟩

theorem connections_held (maxConnections now : Int) (rs : List Accepted)
    (hheld : Held n s lists) : ∃ lists', Held n
      (rs.foldl (fun s r => getSockRequest maxConnections now r s) s) lists' := by
  induction rs generalizing s lists with
  | nil => exact ⟨lists, hheld⟩
  | cons r rs ih =>
    obtain ⟨lists', hheld'⟩ := getSockRequest_held maxConnections now r hheld
    exact ih hheld'

/-- A round serves the requests that are ready behind `fdset_update`. -/
theorem round_served (cfg : Settings) (e : Events) {s₁ : State} {lists₁ : Queue → List Addr}
    {visited : List Addr}
    (hrun : fdsetUpdate cfg.kaTimeout e.now n (s.head .block) s = some (s₁, visited))
    (hheld₁ : Held n s₁ lists₁) :
    ∃ s' trace lists', round cfg n e s = some (s', trace) ∧ Held n s' lists' ∧
      trace.map Prod.fst = lists₁ .ready ∧
      ∀ p ∈ trace, p.1 ∈ lists' (place e.wizard p.2 (s'.data p.1).bufferEnd) := by
  unfold round
  rw [hrun]
  dsimp only
  have hhead : s₁.head .ready = (lists₁ .ready).head? := (hheld₁.queues.linked .ready).head
  cases hready : s₁.head .ready with
  | some a =>
    obtain ⟨s₂, trace, lists₂, hserve, hserved, hheld₂⟩ :=
      processRequests_held e.handlers e.wizard e.now hheld₁
    rw [hready] at hserve
    refine ⟨{ s₂ with fds := fun _ => false }, trace, lists₂,
      by simp only [hserve, Option.map_some], hheld₂.same ⟨rfl, rfl⟩, hserved.visited,
      fun p hp => ?_⟩
    exact hserved.placed hp
  | none =>
    have hselected : Held n { s₁ with fds := e.selected } lists₁ := hheld₁.same ⟨rfl, rfl⟩
    obtain ⟨lists', hheld'⟩ := connections_held cfg.maxConnections e.now e.connections hselected
    rw [hready] at hhead
    refine ⟨_, [], lists', rfl, hheld', ?_, nofun⟩
    exact (List.head?_eq_none_iff.mp hhead.symm).symm

theorem round_held (cfg : Settings) (e : Events) (hheld : Held n s lists) :
    ∃ s' trace lists', round cfg n e s = some (s', trace) ∧ Held n s' lists' := by
  obtain ⟨s₁, lists₁, hrun, hheld₁⟩ :=
    fdsetUpdate_held cfg.kaTimeout e.now hheld (List.nil_append (lists .block)).symm
  have hrun := hrun n (hheld.length_le .block)
  rw [← (hheld.queues.linked .block).head] at hrun
  obtain ⟨s', trace, lists', hround, hheld', -, -⟩ := round_served cfg e hrun hheld₁
  exact ⟨s', trace, lists', hround, hheld'⟩

theorem initFreeRequests_held (data : Addr → Request) (fds : Side × Int → Bool) (n : Nat) :
    ∃ lists, Held n (initFreeRequests n (blank data fds)) lists := by
  induction n with
  | zero =>
    refine ⟨fun _ => [], ⟨fun _ => rfl, fun _ => List.nodup_nil, nofun⟩, fun a => ?_⟩
    simp
  | succ n ih =>
    obtain ⟨lists, hheld⟩ := ih
    have hnew : ∀ q, n ∉ lists q := fun q hn => Nat.lt_irrefl n ((hheld.all n).mp ⟨q, hn⟩)
    have hpushed := hheld.queues.push hnew (q := .free)
    refine ⟨_, hpushed, fun a => ?_⟩
    have hmem : (∃ q, a ∈ Function.update lists .free (n :: lists .free) q) ↔
        a = n ∨ ∃ q, a ∈ lists q := by
      constructor
      · rintro ⟨q, ha⟩
        by_cases hq : q = .free
        · rw [hq, Function.update_self] at ha
          exact (List.mem_cons.mp ha).imp_right fun ha => ⟨.free, ha⟩
        · rw [Function.update_of_ne hq] at ha
          exact Or.inr ⟨q, ha⟩
      · rintro (rfl | ⟨q, ha⟩)
        · exact ⟨.free, by rw [Function.update_self]; exact List.mem_cons_self⟩
        · by_cases hq : q = .free
          · exact ⟨.free, by rw [Function.update_self]; exact List.mem_cons_of_mem n (hq ▸ ha)⟩
          · exact ⟨q, by rwa [Function.update_of_ne hq]⟩
    rw [hmem, hheld.all a, Nat.lt_succ_iff_lt_or_eq]
    exact or_comm

/-- In every run of the main loop its inner loops end, and each object of the server is in exactly
one of the three lists. -/
theorem rounds_hold (cfg : Settings) (n : Nat) (data : Addr → Request) (fds : Side × Int → Bool)
    (es : List Events) :
    ∃ s lists, rounds cfg n es (initFreeRequests n (blank data fds)) = some s ∧
      Held n s lists := by
  obtain ⟨lists, hheld⟩ := initFreeRequests_held data fds n
  generalize initFreeRequests n (blank data fds) = s at hheld ⊢
  induction es generalizing s lists with
  | nil => exact ⟨s, lists, rfl, hheld⟩
  | cons e es ih =>
    obtain ⟨s₁, trace, lists₁, hround, hheld₁⟩ := round_held cfg e hheld
    obtain ⟨s', lists', hrun, hheld'⟩ := ih lists₁ s₁ hheld₁
    exact ⟨s', lists', by rw [rounds, hround]; exact hrun, hheld'⟩

/-- In a round the handlers run once for each request that has been ready or that the last call of
`select` has made so, in this order, and for no other one; then the request is where the result of
its handler says. -/
theorem round_serves (cfg : Settings) (e : Events) (hheld : Held n s lists)
    (hown : ((lists .block).map fun a => awaited (s.data a)).Nodup) :
    ∃ s' trace lists', round cfg n e s = some (s', trace) ∧ Held n s' lists' ∧
      trace.map Prod.fst =
        ((lists .block).filter fun a => fate cfg.kaTimeout e.now s a = .ready).reverse ++
          lists .ready ∧
      ∀ p ∈ trace, p.1 ∈ lists' (place e.wizard p.2 (s'.data p.1).bufferEnd) := by
  have hhead : s.head .block = (lists .block).head? := (hheld.queues.linked .block).head
  have hwaiting : Waiting s lists := ⟨hheld.queues, hown⟩
  have hupdated : ∃ s₁ lists₁, (∀ k, (lists .block).length ≤ k →
      fdsetUpdate cfg.kaTimeout e.now k (s.head .block) s = some (s₁, lists .block)) ∧
        Walked cfg.kaTimeout e.now s s₁ [] (lists .block) lists lists₁ :=
    fdsetUpdate_walked hwaiting
  obtain ⟨s₁, lists₁, hrun, hwalked⟩ := hupdated
  have hrun := hrun n (hheld.length_le .block)
  obtain ⟨s₂, lists₂, hkeep, hheld₂⟩ :=
    fdsetUpdate_held cfg.kaTimeout e.now hheld (List.nil_append (lists .block)).symm
  have hkeep := hkeep n (hheld.length_le .block)
  rw [← hhead, hrun] at hkeep
  obtain ⟨rfl, -⟩ := Prod.mk.inj (Option.some.inj hkeep)
  obtain rfl : lists₁ = lists₂ := hwalked.queues.unique hheld₂.queues
  have hserved := round_served cfg e hrun hheld₂
  rwa [hwalked.moved .ready nofun] at hserved

/-- Two objects, the first of which waits for the header of a request on a socket. -/
def waitingState : State :=
  { blank (fun _ => { zeroRequest with fd := 7, timeLast := 90 }) fun x => x = (.read, 7) with
    head := fun q => if q = .block then some 0 else if q = .free then some 1 else none }

def waitingLists (q : Queue) : List Addr :=
  if q = .block then [0] else if q = .free then [1] else []

theorem waiting_held : Held 2 waitingState waitingLists := by
  refine ⟨⟨fun q => ?_, fun q => ?_, fun q q' a ha ha' => ?_⟩, fun a => ⟨?_, fun ha => ?_⟩⟩
  · cases q with
    | ready => rfl
    | block => exact ⟨rfl, rfl, rfl⟩
    | free => exact ⟨rfl, rfl, rfl⟩
  · cases q with
    | ready => exact List.nodup_nil
    | block => exact List.nodup_singleton 0
    | free => exact List.nodup_singleton 1
  · cases q <;> cases q' <;> simp_all [waitingLists]
  · rintro ⟨q, ha⟩
    cases q <;> simp_all [waitingLists]
  · have hcases : a = 0 ∨ a = 1 := Nat.le_one_iff_eq_zero_or_eq_one.mp (Nat.le_of_lt_succ ha)
    rcases hcases with rfl | rfl
    · exact ⟨.block, List.mem_singleton.mpr rfl⟩
    · exact ⟨.free, List.mem_singleton.mpr rfl⟩

/-- Handlers that leave everything as it is and ask for more. -/
def idleHandlers : Handlers :=
  let leave (a : Addr) (s : State) : Outcome :=
    { request := s.data a, closed := s.closed, connections := s.connections
      gUpgradeFirmware := s.gUpgradeFirmware, upgradeFile := s.upgradeFile }
  let more (a : Addr) (s : State) : Outcome × Int := (leave a s, 1)
  { reqFlush := leave, readHeader := more, readBody := more, writeBody := more
    processGet := more, readFromPipe := more, writeFromPipe := more, sendRError := leave }

theorem round_serves_waiting :
    ∃ s' trace lists', round ⟨10, -1⟩ 2 ⟨100, false, idleHandlers, fun _ => false, []⟩
        waitingState = some (s', trace) ∧ Held 2 s' lists' ∧
      trace.map Prod.fst =
        ((waitingLists .block).filter fun a => fate 10 100 waitingState a = .ready).reverse ++
          waitingLists .ready ∧
      ∀ p ∈ trace, p.1 ∈ lists' (place false p.2 (s'.data p.1).bufferEnd) :=
  round_serves ⟨10, -1⟩ ⟨100, false, idleHandlers, fun _ => false, []⟩ waiting_held
    (List.nodup_singleton _)

end MainLoop
