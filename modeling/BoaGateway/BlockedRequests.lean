import BoaGateway.DoublyLinked

/-!
# The blocked requests

`fdset_update` goes over the blocked requests and takes those that have timed out and those that
can go on out of the list while it walks along it. The function that frees a request does nothing
as long as the request has output in its buffer, so a request that times out with output stays
where it is for good.
-/

namespace BlockedRequests

open DoublyLinked

inductive Status where
  | readHeader | oneCr | oneLf | twoCr | bodyRead | bodyWrite | write | pipeRead | pipeWrite
  | close | reboot | lanipChange
  deriving DecidableEq

inductive Queue where
  | ready | block | free
  deriving DecidableEq

/-- The two sets of descriptors. -/
inductive Side where
  | read | write
  deriving DecidableEq

/-- The members of a request that are looked at. -/
structure Request where
  status : Status
  bufferEnd : Nat
  fd : Int
  dataFd : Int
  postDataFd : Int
  postFileName : Bool
  kacount : Nat
  timeLast : Int
  logline : Bool
  responseStatus : Int
  deriving DecidableEq

abbrev Addr := Nat

structure State where
  data : Addr → Request
  links : Cells Addr
  head : Queue → Option Addr
  fds : Side × Int → Bool
  closed : List Int
  connections : Int
  errors : Int
  gUpgradeFirmware : Bool
  /-- The file `/tmp/g_upgrade_firmware` is there. -/
  upgradeFile : Bool

def requestTimeout : Int := 60

/-- The descriptor that a request waits for: the switch of `block_request`, `ready_request`,
`free_request` and `fdset_update`. -/
def awaited (r : Request) : Side × Int :=
  if r.bufferEnd ≠ 0 then (.write, r.fd)
  else
    match r.status with
    | .pipeWrite | .write => (.write, r.fd)
    | .pipeRead => (.read, r.dataFd)
    | .bodyWrite => (.write, r.postDataFd)
    | _ => (.read, r.fd)

def fdSet (x : Side × Int) (s : State) : State := { s with fds := Function.update s.fds x true }

def fdClr (x : Side × Int) (s : State) : State := { s with fds := Function.update s.fds x false }

def closeFd (fd : Int) (s : State) : State := { s with closed := s.closed ++ [fd] }

def modify (a : Addr) (f : Request → Request) (s : State) : State :=
  { s with data := Function.update s.data a (f (s.data a)) }

def dequeue (q : Queue) (a : Addr) (s : State) : State :=
  { s with
    head := Function.update s.head q (if s.head q = some a then s.links.next a else s.head q)
    links := s.links.unlink a }

def enqueue (q : Queue) (a : Addr) (s : State) : State :=
  { s with
    links := s.links.push (s.head q) a
    head := Function.update s.head q (some a) }

def readyRequest (a : Addr) (s : State) : State :=
  fdClr (awaited (s.data a)) (enqueue .ready a (dequeue .block a s))

/-- The uploaded file of a request is removed, but not during an upgrade. -/
def freePost (a : Addr) (s : State) : State :=
  if s.gUpgradeFirmware = false then
    if (s.data a).postFileName = true then
      modify a (fun r => { r with postDataFd := -1, postFileName := false })
        (closeFd (s.data a).postDataFd s)
    else s
  else if s.upgradeFile = true then s
  else { s with gUpgradeFirmware := false }

def closeFile (r : Request) (s : State) : State := if r.dataFd ≠ 0 then closeFd r.dataFd s else s

def countError (r : Request) (s : State) : State :=
  if 400 ≤ r.responseStatus then { s with errors := s.errors + 1 } else s

def closeSocket (r : Request) (s : State) : State :=
  if r.fd ≠ -1 then closeFd r.fd { s with connections := s.connections - 1 } else s

def closeConnection (a : Addr) (s : State) : State :=
  let r := s.data a
  modify a (fun r => { r with fd := -1 }) (closeSocket r (countError r (closeFile r s)))

/-- `free_request`, for a connection that is not kept alive. -/
def freeRequest (a : Addr) (s : State) : State :=
  if (s.data a).bufferEnd ≠ 0 then s
  else
    enqueue .free a (freePost a (closeConnection a (fdClr (awaited (s.data a)) (dequeue .block a s))))

/-- One round of the loop of `fdset_update`. Before a request is freed its connection is set to
be not kept alive. -/
def visit (kaTimeout now : Int) (a : Addr) (s : State) : State :=
  let r := s.data a
  if r.kacount ≠ 0 ∧ kaTimeout ≤ now - r.timeLast ∧ r.logline = false then freeRequest a s
  else if requestTimeout < now - r.timeLast then freeRequest a s
  else if r.bufferEnd ≠ 0 then
    -- the descriptor is not put into the set again
    if s.fds (awaited r) = true then readyRequest a s else s
  else if s.fds (awaited r) = true then readyRequest a s
  else fdSet (awaited r) s

/-- The loop of `fdset_update`, of so many rounds at most, with the requests that it visits. -/
def fdsetUpdate (kaTimeout now : Int) : Nat → Option Addr → State → Option (State × List Addr)
  | _, none, s => some (s, [])
  | 0, some _, _ => none
  | n + 1, some a, s =>
    let next := s.links.next a
    (fdsetUpdate kaTimeout now n next (visit kaTimeout now a s)).map fun r => (r.1, a :: r.2)

/-- The queues are linked, and each blocked request waits for a descriptor of its own. -/
structure Waiting (s : State) (lists : Queue → List Addr) : Prop where
  queues : Lists s.links s.head lists
  own : ((lists .block).map fun a => awaited (s.data a)).Nodup

def TimedOut (now : Int) (r : Request) : Prop := requestTimeout < now - r.timeLast

/-- Each blocked request is visited once. One that has timed out is freed and its socket closed,
another one is ready if its descriptor is set and stays blocked otherwise. -/
structure Right (kaTimeout now : Int) (s : State) (lists : Queue → List Addr) (s' : State)
    (lists' : Queue → List Addr) : Prop where
  visits : ∀ n, (lists .block).length ≤ n →
    fdsetUpdate kaTimeout now n (s.head .block) s = some (s', lists .block)
  queues : Lists s'.links s'.head lists'
  others : ∀ q a, q ≠ .block → a ∈ lists q → a ∈ lists' q
  only : ∀ q a, a ∈ lists' q → ∃ q', a ∈ lists q'
  timedOut : ∀ a ∈ lists .block, TimedOut now (s.data a) →
    a ∈ lists' .free ∧ ((s.data a).fd ≠ -1 → (s.data a).fd ∈ s'.closed)
  ready : ∀ a ∈ lists .block, ¬ TimedOut now (s.data a) → s.fds (awaited (s.data a)) = true →
    a ∈ lists' .ready
  blocked : ∀ a ∈ lists .block, ¬ TimedOut now (s.data a) → s.fds (awaited (s.data a)) = false →
    a ∈ lists' .block

/-- A connection that was kept alive for a next request, for long enough. -/
def KeptOver (kaTimeout now : Int) (r : Request) : Prop :=
  r.kacount ≠ 0 ∧ kaTimeout ≤ now - r.timeLast ∧ r.logline = false

instance (now : Int) (r : Request) : Decidable (TimedOut now r) :=
  inferInstanceAs (Decidable (_ < _))

instance (kaTimeout now : Int) (r : Request) : Decidable (KeptOver kaTimeout now r) :=
  inferInstanceAs (Decidable (_ ∧ _))

/-- Where a request is afterwards. -/
def fate (kaTimeout now : Int) (s : State) (a : Addr) : Queue :=
  if KeptOver kaTimeout now (s.data a) ∨ TimedOut now (s.data a) then
    if (s.data a).bufferEnd = 0 then .free else .block
  else if s.fds (awaited (s.data a)) = true then .ready
  else .block

variable {kaTimeout now : Int} {s s' : State} {lists lists' : Queue → List Addr} {a : Addr}
  {front back : List Addr}

/-- A request goes from the blocked ones to another queue. -/
structure Moved (q : Queue) (a : Addr) (s s' : State) : Prop where
  links : s'.links = (enqueue q a (dequeue .block a s)).links
  head : s'.head = (enqueue q a (dequeue .block a s)).head
  data : ∀ b, b ≠ a → s'.data b = s.data b
  fds : s'.fds = Function.update s.fds (awaited (s.data a)) false
  closed : s.closed <+: s'.closed

theorem readyRequest_moved (a : Addr) (s : State) : Moved .ready a s (readyRequest a s) :=
  ⟨rfl, rfl, fun _ _ => rfl, rfl, List.prefix_rfl⟩

/-- What is done to a request between two queues. -/
structure Ended (a : Addr) (s s' : State) : Prop where
  links : s'.links = s.links
  head : s'.head = s.head
  data : ∀ b, b ≠ a → s'.data b = s.data b
  fds : s'.fds = s.fds
  closed : s.closed <+: s'.closed

theorem Ended.trans {s'' : State} (h : Ended a s s') (h' : Ended a s' s'') : Ended a s s'' :=
  ⟨h'.links.trans h.links, h'.head.trans h.head, fun b hb => (h'.data b hb).trans (h.data b hb),
    h'.fds.trans h.fds, h.closed.trans h'.closed⟩

theorem ended_refl (a : Addr) (s : State) : Ended a s s :=
  ⟨rfl, rfl, fun _ _ => rfl, rfl, List.prefix_rfl⟩

theorem ended_closeFd (a : Addr) (fd : Int) (s : State) : Ended a s (closeFd fd s) :=
  ⟨rfl, rfl, fun _ _ => rfl, rfl, List.prefix_append _ _⟩

theorem ended_modify (a : Addr) (f : Request → Request) (s : State) : Ended a s (modify a f s) :=
  ⟨rfl, rfl, fun _ hb => Function.update_of_ne hb _ _, rfl, List.prefix_rfl⟩

theorem freePost_ended (a : Addr) (s : State) : Ended a s (freePost a s) := by
  unfold freePost
  split
  · split
    · exact (ended_closeFd a _ s).trans (ended_modify a _ _)
    · exact ended_refl a s
  · split
    · exact ended_refl a s
    · exact ⟨rfl, rfl, fun _ _ => rfl, rfl, List.prefix_rfl⟩

theorem closeFile_ended (a : Addr) (r : Request) (s : State) : Ended a s (closeFile r s) := by
  unfold closeFile
  split
  · exact ended_closeFd a _ s
  · exact ended_refl a s

theorem countError_ended (a : Addr) (r : Request) (s : State) : Ended a s (countError r s) := by
  unfold countError
  split
  · exact ⟨rfl, rfl, fun _ _ => rfl, rfl, List.prefix_rfl⟩
  · exact ended_refl a s

theorem closeSocket_ended (a : Addr) (r : Request) (s : State) :
    Ended a s (closeSocket r s) ∧ (r.fd ≠ -1 → r.fd ∈ (closeSocket r s).closed) := by
  unfold closeSocket
  split
  · constructor
    · exact ⟨rfl, rfl, fun _ _ => rfl, rfl, List.prefix_append _ _⟩
    · exact fun _ => List.mem_append_right _ List.mem_cons_self
  · rename_i hfd
    exact ⟨ended_refl a s, fun h => absurd h hfd⟩

theorem closeConnection_ended (a : Addr) (s : State) :
    Ended a s (closeConnection a s) ∧
      ((s.data a).fd ≠ -1 → (s.data a).fd ∈ (closeConnection a s).closed) := by
  have hfile := closeFile_ended a (s.data a) s
  have hcount := countError_ended a (s.data a) (closeFile (s.data a) s)
  obtain ⟨hended, hclosed⟩ :=
    closeSocket_ended a (s.data a) (countError (s.data a) (closeFile (s.data a) s))
  unfold closeConnection
  constructor
  · exact ((hfile.trans hcount).trans hended).trans (ended_modify a _ _)
  · exact hclosed

theorem freeRequest_moved (h : (s.data a).bufferEnd = 0) :
    Moved .free a s (freeRequest a s) ∧
      ((s.data a).fd ≠ -1 → (s.data a).fd ∈ (freeRequest a s).closed) := by
  obtain ⟨hclose, hsocket⟩ : Ended a (fdClr (awaited (s.data a)) (dequeue .block a s))
      (closeConnection a (fdClr (awaited (s.data a)) (dequeue .block a s))) ∧ _ :=
    closeConnection_ended a (fdClr (awaited (s.data a)) (dequeue .block a s))
  have hpost := freePost_ended a (closeConnection a (fdClr (awaited (s.data a)) (dequeue .block a s)))
  obtain ⟨hlinks, hhead, hdata, hfds, hclosed⟩ := hclose.trans hpost
  rw [freeRequest, if_neg (not_not.mpr h)]
  refine ⟨⟨?_, ?_, hdata, hfds, hclosed⟩, fun hfd => hpost.closed.subset (hsocket hfd)⟩
  · simp only [enqueue, hlinks, hhead]
    rfl
  · simp only [enqueue, hhead]
    rfl

/-- A request that has moved is in the other queue. -/
theorem Moved.queues {q : Queue} (h : Moved q a s s') (hq : q ≠ .block)
    (hlists : Lists s.links s.head lists) (hblock : lists .block = front ++ a :: back) :
    Lists s'.links s'.head
      (Function.update (Function.update lists .block (front ++ back)) q (a :: lists q)) := by
  obtain ⟨hunlinked, hnot⟩ := hlists.unlink hblock
  have hother : Function.update lists .block (front ++ back) q = lists q :=
    Function.update_of_ne hq _ _
  have hpushed := hunlinked.push hnot (q := q)
  rw [hother] at hpushed
  rw [h.links, h.head]
  exact hpushed

/-- One round: the request stays, or it moves to another queue. -/
theorem visit_cases (kaTimeout now : Int) (a : Addr) (s : State) :
    fate kaTimeout now s a = .block ∧
        (visit kaTimeout now a s = s ∨ visit kaTimeout now a s = fdSet (awaited (s.data a)) s) ∨
      fate kaTimeout now s a ≠ .block ∧ Moved (fate kaTimeout now s a) a s (visit kaTimeout now a s) ∧
        (fate kaTimeout now s a = .ready → (visit kaTimeout now a s).data = s.data) ∧
        (fate kaTimeout now s a = .free → (s.data a).fd ≠ -1 →
          (s.data a).fd ∈ (visit kaTimeout now a s).closed) := by
  have hvisit : visit kaTimeout now a s =
      if KeptOver kaTimeout now (s.data a) ∨ TimedOut now (s.data a) then freeRequest a s
      else if s.fds (awaited (s.data a)) = true then readyRequest a s
      else if (s.data a).bufferEnd ≠ 0 then s
      else fdSet (awaited (s.data a)) s := by
    by_cases hkept : KeptOver kaTimeout now (s.data a)
    · rw [if_pos (Or.inl hkept)]
      exact if_pos hkept
    by_cases htimed : TimedOut now (s.data a)
    · rw [if_pos (Or.inr htimed)]
      exact (if_neg hkept).trans (if_pos htimed)
    rw [if_neg (not_or.mpr ⟨hkept, htimed⟩)]
    refine (if_neg hkept).trans ((if_neg htimed).trans ?_)
    by_cases hset : s.fds (awaited (s.data a)) = true
    · simp only [if_pos hset, ite_self]
    · simp only [if_neg hset]
  rw [hvisit, fate]
  by_cases hover : KeptOver kaTimeout now (s.data a) ∨ TimedOut now (s.data a)
  · rw [if_pos hover, if_pos hover]
    by_cases hbuffer : (s.data a).bufferEnd = 0
    · rw [if_pos hbuffer]
      obtain ⟨hmoved, hclosed⟩ := freeRequest_moved hbuffer
      exact Or.inr ⟨nofun, hmoved, nofun, fun _ => hclosed⟩
    · rw [if_neg hbuffer, freeRequest, if_pos hbuffer]
      exact Or.inl ⟨rfl, Or.inl rfl⟩
  · rw [if_neg hover, if_neg hover]
    by_cases hset : s.fds (awaited (s.data a)) = true
    · rw [if_pos hset, if_pos hset]
      exact Or.inr ⟨nofun, readyRequest_moved a s, fun _ => rfl, nofun⟩
    · rw [if_neg hset, if_neg hset]
      by_cases hbuffer : (s.data a).bufferEnd ≠ 0
      · rw [if_pos hbuffer]
        exact Or.inl ⟨rfl, Or.inl rfl⟩
      · rw [if_neg hbuffer]
        exact Or.inl ⟨rfl, Or.inr rfl⟩

/-- The other requests and the descriptors that they wait for stay as they are. -/
theorem visit_others (kaTimeout now : Int) (a : Addr) (s : State) :
    (∀ b, b ≠ a → (visit kaTimeout now a s).data b = s.data b) ∧
      (∀ x, x ≠ awaited (s.data a) → (visit kaTimeout now a s).fds x = s.fds x) ∧
        s.closed <+: (visit kaTimeout now a s).closed := by
  rcases visit_cases kaTimeout now a s with ⟨-, heq | heq⟩ | ⟨-, hmoved, -⟩
  · rw [heq]
    exact ⟨fun _ _ => rfl, fun _ _ => rfl, List.prefix_rfl⟩
  · rw [heq]
    exact ⟨fun _ _ => rfl, fun _ hx => Function.update_of_ne hx _ _, List.prefix_rfl⟩
  · refine ⟨hmoved.data, fun x hx => ?_, hmoved.closed⟩
    rw [hmoved.fds, Function.update_of_ne hx]

theorem fate_congr {b : Addr} (hdata : s'.data b = s.data b)
    (hfds : s'.fds (awaited (s.data b)) = s.fds (awaited (s.data b))) :
    fate kaTimeout now s' b = fate kaTimeout now s b := by
  unfold fate
  rw [hdata, hfds]

/-- Only a request that is freed is changed. -/
theorem visit_kept {b : Addr} (h : b = a → fate kaTimeout now s b ≠ .free) :
    (visit kaTimeout now a s).data b = s.data b := by
  by_cases hba : b = a
  · subst hba
    have hfree := h rfl
    rcases visit_cases kaTimeout now b s with ⟨-, heq | heq⟩ | ⟨hmove, -, hready, -⟩
    · rw [heq]
    · rw [heq]
      rfl
    · cases hq : fate kaTimeout now s b with
      | ready => rw [hready hq]
      | block => exact absurd hq hmove
      | free => exact absurd hq hfree
  · exact (visit_others kaTimeout now a s).1 b hba

/-- The socket of a request that is freed is closed. -/
theorem visit_socket (hfree : fate kaTimeout now s a = .free) (hfd : (s.data a).fd ≠ -1) :
    (s.data a).fd ∈ (visit kaTimeout now a s).closed := by
  rcases visit_cases kaTimeout now a s with ⟨hblocked, -⟩ | ⟨-, -, -, hsocket⟩
  · cases hblocked.symm.trans hfree
  · exact hsocket hfree hfd

/-- The lists behind one round. -/
theorem visit_lists (hqueues : Lists s.links s.head lists)
    (hblock : lists .block = front ++ a :: back) :
    ∃ lists', Lists (visit kaTimeout now a s).links (visit kaTimeout now a s).head lists' ∧
      lists' .block = front ++ (if fate kaTimeout now s a = .block then [a] else []) ++ back ∧
      ∀ q, q ≠ .block → lists' q = (if fate kaTimeout now s a = q then [a] else []) ++ lists q := by
  rcases visit_cases kaTimeout now a s with ⟨hfate, hvisit⟩ | ⟨hfate, hmoved, -⟩
  · refine ⟨lists, ?_, ?_, fun q hq => ?_⟩
    · rcases hvisit with hvisit | hvisit
      · rwa [hvisit]
      · rw [hvisit]
        exact hqueues
    · rw [if_pos hfate, hblock, List.append_assoc, List.singleton_append]
    · rw [if_neg (hfate ▸ hq.symm), List.nil_append]
  · refine ⟨_, hmoved.queues hfate hqueues hblock, ?_, fun q hq => ?_⟩
    · rw [Function.update_of_ne (Ne.symm hfate), Function.update_self, if_neg hfate,
        List.append_nil]
    · by_cases hqf : fate kaTimeout now s a = q
      · rw [if_pos hqf, ← hqf, Function.update_self, List.singleton_append]
      · rw [if_neg hqf, Function.update_of_ne (Ne.symm hqf), Function.update_of_ne hq,
          List.nil_append]

/-- What the loop has done from a state on, for the requests that it was still to visit. -/
structure Walked (kaTimeout now : Int) (s s' : State) (front todo : List Addr)
    (lists lists' : Queue → List Addr) : Prop where
  queues : Lists s'.links s'.head lists'
  block : lists' .block = front ++ todo.filter fun a => fate kaTimeout now s a = .block
  moved : ∀ q, q ≠ .block →
    lists' q = (todo.filter fun a => fate kaTimeout now s a = q).reverse ++ lists q
  data : ∀ a, a ∉ todo ∨ fate kaTimeout now s a ≠ .free → s'.data a = s.data a
  closed : s.closed <+: s'.closed
  sockets : ∀ a ∈ todo, fate kaTimeout now s a = .free → (s.data a).fd ≠ -1 →
    (s.data a).fd ∈ s'.closed

theorem fdsetUpdate_walks {todo : List Addr} (hqueues : Lists s.links s.head lists)
    (hblock : lists .block = front ++ todo)
    (hown : (todo.map fun a => awaited (s.data a)).Nodup) :
    ∃ s' lists', (∀ n, todo.length ≤ n →
      fdsetUpdate kaTimeout now n todo.head? s = some (s', todo)) ∧
        Walked kaTimeout now s s' front todo lists lists' := by
  induction todo generalizing s lists front with
  | nil =>
    refine ⟨s, lists, fun n _ => by cases n <;> rfl, hqueues, ?_, fun _ _ => rfl, fun _ _ => rfl,
      List.prefix_rfl, nofun⟩
    rw [hblock, List.filter_nil]
  | cons a todo ih =>
    have hnodup := hqueues.nodup .block
    have hlinked := hqueues.linked .block
    rw [hblock] at hnodup hlinked
    obtain ⟨ha, hown⟩ := List.nodup_cons.mp hown
    have hnot : a ∉ todo := (List.nodup_cons.mp (List.nodup_append.mp hnodup).2.1).1
    obtain ⟨hdata, hfds, hclosed⟩ := visit_others kaTimeout now a s
    have hsame : ∀ b ∈ todo, (visit kaTimeout now a s).data b = s.data b :=
      fun b hb => hdata b fun heq => hnot (heq ▸ hb)
    have hfate : ∀ b ∈ todo,
        fate kaTimeout now (visit kaTimeout now a s) b = fate kaTimeout now s b := by
      intro b hb
      refine fate_congr (hsame b hb) (hfds _ fun heq => ha ?_)
      exact List.mem_map.mpr ⟨b, hb, heq⟩
    have hown' : (todo.map fun b => awaited ((visit kaTimeout now a s).data b)).Nodup := by
      rwa [List.map_congr_left fun b hb => congrArg awaited (hsame b hb)]
    have hnext : s.links.next a = todo.head? := hlinked.beside.2
    obtain ⟨lists₁, hqueues₁, hblock₁, hmoved₁⟩ := visit_lists hqueues hblock
    obtain ⟨s', lists', hrun, hwalked⟩ := ih hqueues₁ hblock₁ hown'
    have hfilter (q : Queue) :
        todo.filter (fun b => fate kaTimeout now (visit kaTimeout now a s) b = q) =
          todo.filter fun b => fate kaTimeout now s b = q :=
      List.filter_congr fun b hb => by rw [hfate b hb]
    refine ⟨s', lists', fun n hn => ?_, hwalked.queues, ?_, fun q hq => ?_, fun b hb => ?_,
      hclosed.trans hwalked.closed, ?_⟩
    · obtain ⟨n, rfl⟩ := Nat.exists_eq_add_one_of_ne_zero (Nat.ne_of_gt (Nat.lt_of_lt_of_le
        (Nat.succ_pos _) hn))
      have hrun := hrun n (Nat.le_of_succ_le_succ hn)
      rw [List.head?_cons, fdsetUpdate, hnext, hrun, Option.map_some]
    · rw [hwalked.block, hfilter, List.filter_cons, List.append_assoc]
      simp only [decide_eq_true_eq]
      split
      · rfl
      · rfl
    · rw [hwalked.moved q hq, hfilter, hmoved₁ q hq, List.filter_cons]
      simp only [decide_eq_true_eq]
      split
      · simp
      · rfl
    · have hvisit : (visit kaTimeout now a s).data b = s.data b :=
        visit_kept fun hba => hb.resolve_left fun hmem => hmem (hba ▸ List.mem_cons_self)
      rw [hwalked.data b ?_, hvisit]
      by_cases hmem : b ∈ todo
      · exact Or.inr (hfate b hmem ▸ hb.resolve_left fun h => h (List.mem_cons_of_mem a hmem))
      · exact Or.inl hmem
    · refine List.forall_mem_cons.mpr ⟨fun hfree hfd => ?_, fun b hb hfree hfd => ?_⟩
      · exact hwalked.closed.subset (visit_socket hfree hfd)
      · have hsocket := hwalked.sockets b hb
        rw [hfate b hb, hsame b hb] at hsocket
        exact hsocket hfree hfd

/-- No request that has timed out has output in its buffer, and one that was kept alive for long
enough before has output and waits on. -/
structure Clear (kaTimeout now : Int) (s : State) (blocked : List Addr) : Prop where
  pending : ∀ a ∈ blocked, TimedOut now (s.data a) → (s.data a).bufferEnd = 0
  kept : ∀ a ∈ blocked, KeptOver kaTimeout now (s.data a) → ¬ TimedOut now (s.data a) →
    (s.data a).bufferEnd ≠ 0 ∧ s.fds (awaited (s.data a)) = false

/-- Where a request should be. -/
def due (now : Int) (s : State) (a : Addr) : Queue :=
  if TimedOut now (s.data a) then .free
  else if s.fds (awaited (s.data a)) = true then .ready
  else .block

theorem clear_iff {blocked : List Addr} :
    Clear kaTimeout now s blocked ↔ ∀ a ∈ blocked, fate kaTimeout now s a = due now s a := by
  constructor
  · intro h a ha
    have hpending := h.pending a ha
    have hkept := h.kept a ha
    unfold fate due
    by_cases htimed : TimedOut now (s.data a)
    · rw [if_pos (Or.inr htimed), if_pos (hpending htimed), if_pos htimed]
    · rw [if_neg htimed]
      by_cases hover : KeptOver kaTimeout now (s.data a)
      · obtain ⟨hbuffer, hset⟩ := hkept hover htimed
        rw [if_pos (Or.inl hover), if_neg hbuffer, if_neg (by simp [hset])]
      · rw [if_neg (not_or.mpr ⟨hover, htimed⟩)]
  · intro h
    constructor
    · intro a ha htimed
      have hfate := h a ha
      unfold fate due at hfate
      rw [if_pos (Or.inr htimed), if_pos htimed] at hfate
      by_contra hbuffer
      rw [if_neg hbuffer] at hfate
      cases hfate
    · intro a ha hover htimed
      have hfate := h a ha
      unfold fate due at hfate
      rw [if_pos (Or.inl hover), if_neg htimed] at hfate
      split at hfate
      · split at hfate
        · cases hfate
        · cases hfate
      · rename_i hbuffer
        split at hfate
        · cases hfate
        · rename_i hset
          exact ⟨hbuffer, by simpa using hset⟩

theorem Walked.place (h : Walked kaTimeout now s s' [] (lists .block) lists lists') {a : Addr}
    (ha : a ∈ lists .block) : a ∈ lists' (fate kaTimeout now s a) := by
  by_cases hblock : fate kaTimeout now s a = .block
  · rw [hblock, h.block, List.nil_append]
    exact List.mem_filter.mpr ⟨ha, by simpa using hblock⟩
  · rw [h.moved _ hblock]
    apply List.mem_append_left
    rw [List.mem_reverse]
    exact List.mem_filter.mpr ⟨ha, by simp⟩

theorem Walked.only (h : Walked kaTimeout now s s' [] (lists .block) lists lists') (q : Queue)
    (a : Addr) (ha : a ∈ lists' q) : ∃ q', a ∈ lists q' := by
  by_cases hq : q = .block
  · rw [hq, h.block, List.nil_append] at ha
    exact ⟨.block, List.mem_of_mem_filter ha⟩
  · rw [h.moved q hq] at ha
    rcases List.mem_append.mp ha with ha | ha
    · exact ⟨.block, List.mem_of_mem_filter (List.mem_reverse.mp ha)⟩
    · exact ⟨q, ha⟩

theorem Right.place (h : Right kaTimeout now s lists s' lists') {a : Addr}
    (ha : a ∈ lists .block) : a ∈ lists' (due now s a) := by
  unfold due
  by_cases htimed : TimedOut now (s.data a)
  · rw [if_pos htimed]
    exact (h.timedOut a ha htimed).1
  rw [if_neg htimed]
  by_cases hset : s.fds (awaited (s.data a)) = true
  · rw [if_pos hset]
    exact h.ready a ha htimed hset
  · rw [if_neg hset]
    exact h.blocked a ha htimed (by simpa using hset)

theorem fdsetUpdate_walked (h : Waiting s lists) :
    ∃ s' lists', (∀ n, (lists .block).length ≤ n →
      fdsetUpdate kaTimeout now n (s.head .block) s = some (s', lists .block)) ∧
        Walked kaTimeout now s s' [] (lists .block) lists lists' := by
  rw [(h.queues.linked .block).head]
  exact fdsetUpdate_walks h.queues (List.nil_append _).symm h.own

theorem clear_of_right (h : Waiting s lists) (hright : Right kaTimeout now s lists s' lists') :
    Clear kaTimeout now s (lists .block) := by
  obtain ⟨s'', lists'', hrun, hwalked⟩ := fdsetUpdate_walked h
  have hsame := (hrun _ (Nat.le_refl _)).symm.trans (hright.visits _ (Nat.le_refl _))
  obtain ⟨rfl, -⟩ := Prod.mk.inj (Option.some.inj hsame)
  obtain rfl := hright.queues.unique hwalked.queues
  refine clear_iff.mpr fun a ha => ?_
  exact hwalked.queues.apart _ _ a (hwalked.place ha) (hright.place ha)

theorem right_of_clear (h : Waiting s lists) (hclear : Clear kaTimeout now s (lists .block)) :
    ∃ s' lists', Right kaTimeout now s lists s' lists' := by
  obtain ⟨s', lists', hrun, hwalked⟩ := fdsetUpdate_walked h
  have hfate := clear_iff.mp hclear
  have hplace {a : Addr} (ha : a ∈ lists .block) : a ∈ lists' (due now s a) :=
    hfate a ha ▸ hwalked.place ha
  refine ⟨s', lists', hrun, hwalked.queues, fun q a hq ha => ?_, hwalked.only,
    fun a ha htimed => ?_, fun a ha htimed hset => ?_, fun a ha htimed hset => ?_⟩
  · rw [hwalked.moved q hq]
    exact List.mem_append_right _ ha
  · have hdue : due now s a = .free := if_pos htimed
    exact ⟨hdue ▸ hplace ha, hwalked.sockets a ha ((hfate a ha).trans hdue)⟩
  · have hdue : due now s a = .ready := (if_neg htimed).trans (if_pos hset)
    exact hdue ▸ hplace ha
  · have hdue : due now s a = .block := (if_neg htimed).trans (if_neg (by simp [hset]))
    exact hdue ▸ hplace ha

/-- Calls of the function one after the other, each with the sets that `select` has left. -/
inductive Calls (kaTimeout : Int) (s : State) (now : Int) : State → Int → Prop where
  | none : Calls kaTimeout s now s now
  | call {s₁ s₂ : State} {t₁ t₂ : Int} {k : Nat} {visited : List Addr}
      (fds : Side × Int → Bool) : Calls kaTimeout s now s₁ t₁ → t₁ ≤ t₂ →
      (∀ n, k ≤ n → fdsetUpdate kaTimeout t₂ n (s₁.head .block) { s₁ with fds := fds } =
        some (s₂, visited)) → Calls kaTimeout s now s₂ t₂

/-- What is left of the blocked requests waits as before. -/
theorem Walked.waiting (h : Walked kaTimeout now s s' [] (lists .block) lists lists')
    (hown : ((lists .block).map fun a => awaited (s.data a)).Nodup) : Waiting s' lists' := by
  refine ⟨h.queues, ?_⟩
  have hsame : ∀ a ∈ lists' .block, awaited (s'.data a) = awaited (s.data a) := by
    intro a ha
    rw [h.block, List.nil_append, List.mem_filter] at ha
    have hfate : fate kaTimeout now s a = .block := by simpa using ha.2
    rw [h.data a (Or.inr (by rw [hfate]; exact nofun))]
  rw [List.map_congr_left hsame, h.block, List.nil_append]
  exact hown.sublist (List.filter_sublist.map _)

/-- A request that has timed out with output in its buffer is never freed. -/
theorem stays_blocked {t : Int} (h : Waiting s lists) (ha : a ∈ lists .block)
    (htimed : TimedOut now (s.data a)) (hpending : (s.data a).bufferEnd ≠ 0)
    (hcalls : Calls kaTimeout s now s' t) :
    now ≤ t ∧ s'.data a = s.data a ∧ ∃ lists', Waiting s' lists' ∧ a ∈ lists' .block := by
  induction hcalls with
  | none => exact ⟨Int.le_refl _, rfl, lists, h, ha⟩
  | @call s₁ s₂ t₁ t₂ k visited fds hcalls hle hrun ih =>
    obtain ⟨hlater, hdata, lists₁, hwaiting, hblocked⟩ := ih
    have hselected : Waiting { s₁ with fds := fds } lists₁ := ⟨hwaiting.queues, hwaiting.own⟩
    obtain ⟨s', lists', hwalk, hwalked⟩ : ∃ s' lists', (∀ n, (lists₁ .block).length ≤ n →
        fdsetUpdate kaTimeout t₂ n (s₁.head .block) { s₁ with fds := fds } =
          some (s', lists₁ .block)) ∧
          Walked kaTimeout t₂ { s₁ with fds := fds } s' [] (lists₁ .block) lists₁ lists' :=
      fdsetUpdate_walked hselected
    have hsame := (hwalk _ (Nat.le_max_left _ k)).symm.trans (hrun _ (Nat.le_max_right _ k))
    obtain ⟨rfl, -⟩ := Prod.mk.inj (Option.some.inj hsame)
    have hfate : fate kaTimeout t₂ { s₁ with fds := fds } a = .block := by
      have htimed₂ : TimedOut t₂ (s₁.data a) := by
        unfold TimedOut at htimed ⊢
        rw [hdata]
        omega
      unfold fate
      rw [if_pos (Or.inr htimed₂), if_neg (by rw [hdata]; exact hpending)]
    refine ⟨Int.le_trans hlater hle, ?_, lists', hwalked.waiting hwaiting.own, ?_⟩
    · exact (hwalked.data a (Or.inr (by rw [hfate]; exact nofun))).trans hdata
    · exact hfate ▸ hwalked.place hblocked

/-- The blocked requests are dealt with as they should if and only if none that has timed out has
output in its buffer, apart from connections that were kept alive. -/
theorem fdset_update_iff {kaTimeout now : Int} {s : State} {lists : Queue → List Addr}
    (h : Waiting s lists) :
    (∃ s' lists', Right kaTimeout now s lists s' lists') ↔ Clear kaTimeout now s (lists .block) := by
  constructor
  · rintro ⟨s', lists', hright⟩
    exact clear_of_right h hright
  · exact right_of_clear h

/-- A request that waits for its header, or for its socket with so much output. -/
def sampleRequest (fd : Int) (status : Status) (bufferEnd : Nat) (timeLast : Int) : Request where
  status := status
  bufferEnd := bufferEnd
  fd := fd
  dataFd := 0
  postDataFd := 0
  postFileName := false
  kacount := 0
  timeLast := timeLast
  logline := false
  responseStatus := 0

/-- Two blocked requests, the first of which has waited for 100 seconds. -/
def sampleState (status : Status) (bufferEnd : Nat) : State where
  data := fun a =>
    if a = 1 then sampleRequest 7 status bufferEnd 0 else sampleRequest 8 .readHeader 0 90
  links := { next := fun a => if a = 1 then some 2 else none
             prev := fun a => if a = 2 then some 1 else none }
  head := fun q => if q = .block then some 1 else none
  fds := fun x => x = (.read, 8)
  closed := []
  connections := 2
  errors := 0
  gUpgradeFirmware := false
  upgradeFile := false

def sampleLists (q : Queue) : List Addr := if q = .block then [1, 2] else []

theorem sample_waiting (status : Status) (bufferEnd : Nat) :
    Waiting (sampleState status bufferEnd) sampleLists := by
  have hfirst : (awaited (sampleRequest 7 status bufferEnd 0)).2 = 7 ∨
      (awaited (sampleRequest 7 status bufferEnd 0)).2 = 0 := by
    unfold awaited
    split
    · exact Or.inl rfl
    · cases status <;> simp [sampleRequest]
  have hsecond : awaited (sampleRequest 8 .readHeader 0 90) = (.read, 8) := rfl
  have hne : awaited (sampleRequest 7 status bufferEnd 0) ≠
      awaited (sampleRequest 8 .readHeader 0 90) := by
    intro heq
    rw [heq, hsecond] at hfirst
    exact absurd hfirst (by decide)
  refine ⟨⟨fun q => ?_, fun q => ?_, fun q q' a ha ha' => ?_⟩, ?_⟩
  · cases q with
    | block => exact ⟨rfl, rfl, rfl, rfl, rfl⟩
    | ready => rfl
    | free => rfl
  · cases q with
    | block => decide
    | ready => exact List.nodup_nil
    | free => exact List.nodup_nil
  · have hblock {q : Queue} {a : Addr} (ha : a ∈ sampleLists q) : q = .block := by
      unfold sampleLists at ha
      split at ha
      · assumption
      · cases ha
    rw [hblock ha, hblock ha']
  · simpa [sampleLists, sampleState] using hne

theorem fdset_update_frees :
    ∃ s' lists', Right 10 100 (sampleState .readHeader 0) sampleLists s' lists' := by
  refine (fdset_update_iff (sample_waiting .readHeader 0)).mpr ⟨fun a ha htimed => ?_, ?_⟩
  · rcases List.mem_pair.mp ha with rfl | rfl
    · rfl
    · rfl
  · intro a ha hkept
    refine absurd ?_ hkept.1
    rcases List.mem_pair.mp ha with rfl | rfl
    · rfl
    · rfl

/-- A request that has timed out with output in its buffer is not freed. -/
theorem output_not_freed :
    ¬ ∀ kaTimeout now s lists, Waiting s lists →
      ∃ s' lists', Right kaTimeout now s lists s' lists' := by
  intro h
  obtain ⟨s', lists', hright⟩ := h 10 100 _ _ (sample_waiting .write 1)
  have hclear := clear_of_right (sample_waiting .write 1) hright
  have hbuffer := hclear.pending 1 (by decide) (by decide)
  exact absurd hbuffer (by decide)

end BlockedRequests
