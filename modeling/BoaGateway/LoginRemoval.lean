import Mathlib.Data.List.Induction
import BoaGateway.BoaLogin

/-!
# Removal passes over the login lists

The loops of `boa.c` that remove entries from `user_login_list` and `errlogin_list`. They
unlink and free the entry they are at, take it as the predecessor of the next one and read
their way on from it. The entries lie in memory here, and every access to an entry that has
been freed is noted.
-/

namespace LoginRemoval

open ByteBlocks BoaLogin

variable {α : Type}

/-- An entry and its member `next`. -/
structure Node (α : Type) where
  entry : α
  next : Option Nat

/-- The variable that points to the list, the entries that were freed, and the accesses to
such entries. A freed entry holds what it held. -/
structure Memory (α : Type) where
  node : Nat → Option (Node α)
  head : Option Nat
  freed : List Nat
  readFreed : List Nat
  wroteFreed : List Nat

def Memory.load (s : Memory α) (a : Nat) : Option (Node α × Memory α) :=
  match s.node a with
  | none => none
  | some e =>
    some (e, if a ∈ s.freed then { s with readFreed := s.readFreed ++ [a] } else s)

def Memory.setNext (s : Memory α) (a : Nat) (next : Option Nat) : Option (Memory α) :=
  match s.node a with
  | none => none
  | some e =>
    some { s with
      node := Function.update s.node a (some { e with next := next })
      wroteFreed := if a ∈ s.freed then s.wroteFreed ++ [a] else s.wroteFreed }

/-- `ulist_free_login_entry` and `ulist_free_errlog_entry`. The directory, the account and the
timer of a login go with its entry. -/
def ulistFree (b : Option Nat) (p : Nat) (s : Memory α) : Option (Memory α) :=
  match s.load p with
  | none => none
  | some (e, s) =>
    let unlinked :=
      if s.head = some p then some { s with head := e.next }
      else
        match b with
        | none => none
        | some b => s.setNext b e.next
    unlinked.map fun s => { s with freed := s.freed ++ [p] }

/-- So many rounds of a loop that removes the entries that satisfy `dead`; `b` is the
predecessor that the loop has noted. -/
def pass (dead : α → Bool) : Nat → Option Nat → Option Nat → Memory α → Option (Memory α)
  | _, _, none, s => some s
  | 0, _, some _, _ => none
  | n + 1, b, some p, s =>
    match s.load p with
    | none => none
    | some (e, s) =>
      match if dead e.entry then ulistFree b p s else some s with
      | none => none
      | some s =>
        match s.load p with
        | none => none
        | some (e, s) => pass dead n (some p) e.next s

/-- The entries behind a pointer, with their addresses. -/
def Linked (node : Nat → Option (Node α)) : Option Nat → List (Nat × α) → Prop
  | p, [] => p = none
  | p, (a, x) :: rest => ∃ next, p = some a ∧ node a = some ⟨x, next⟩ ∧ Linked node next rest

/-- A list whose entries are separate objects. -/
structure LinkedList (α : Type) where
  node : Nat → Option (Node α)
  head : Option Nat
  entries : List (Nat × α)
  linked : Linked node head entries
  nodup : (entries.map (·.1)).Nodup

def LinkedList.memory (l : LinkedList α) : Memory α where
  node := l.node
  head := l.head
  freed := []
  readFreed := []
  wroteFreed := []

/-- An entry of `user_login_list`, with the members of a build that limits the time of remote
logins. -/
structure Login extends UserInfo where
  remoteAccess : Bool
  firstTime : Int

/-- The limits of a build: `LOGIN_AUTOEXIT_TIME` or `LOGIN_MAX_TIME`, and with
`REMOTE_HTTP_ACCESS_AUTO_TIMEOUT` the one for remote logins. -/
structure Limits where
  login : Int
  remote : Option Int
  loginErrWaitTime : Int

def sameIp (req : Option Request) (u : Login) : Bool :=
  match req with
  | none => false
  | some req => u.toUserInfo.sameIp req

def expired (L : Limits) (timeCounter : Int) (u : Login) : Bool :=
  decide (timeCounter - u.lastTime > L.login) ||
    match L.remote with
    | none => false
    | some limit => u.remoteAccess && decide (timeCounter - u.firstTime > limit)

def errExpired (L : Limits) (timeCounter : Int) (e : ErrloginEntry) : Bool :=
  decide (timeCounter - e.lastTime > L.loginErrWaitTime)

/-- `free_from_login_list_by_ip`; the request may be null. -/
def freeFromLoginListByIp (req : Option Request) (n : Nat) (s : Memory Login) :
    Option (Memory Login) :=
  match req with
  | none => some s
  | some _ => pass (sameIp req) n none s.head s

def freeLoginList (n : Nat) (s : Memory Login) : Option (Memory Login) :=
  pass (fun _ => true) n none s.head s

/-- The loop over `user_login_list` in the main loop, which does not reset `bUser_info`. -/
def expireLogins (L : Limits) (timeCounter : Int) (bUserInfo : Option Nat) (n : Nat)
    (s : Memory Login) : Option (Memory Login) :=
  pass (expired L timeCounter) n bUserInfo s.head s

/-- The loop over `errlogin_list` in the main loop. -/
def expireErrlogs (L : Limits) (timeCounter : Int) (berrlog : Option Nat) (n : Nat)
    (s : Memory ErrloginEntry) : Option (Memory ErrloginEntry) :=
  pass (errExpired L timeCounter) n berrlog s.head s

/-- The run ends with the entries that are to be kept in their order, every other one freed
once, and without an access to a freed entry. -/
def Right (dead : α → Bool) (run : Nat → Memory α → Option (Memory α)) (l : LinkedList α) :
    Prop :=
  ∃ n s, run n l.memory = some s ∧ s.readFreed = [] ∧ s.wroteFreed = [] ∧
    s.freed = (l.entries.filter fun e => dead e.2).map (·.1) ∧
    Linked s.node s.head (l.entries.filter fun e => !dead e.2)

variable {dead : α → Bool} {s s' : Memory α} {l : List (Nat × α)} {a n : Nat} {b p : Option Nat}

theorem Memory.load_cases {e : Node α} (h : s.load a = some (e, s')) :
    s.node a = some e ∧
      s' = if a ∈ s.freed then { s with readFreed := s.readFreed ++ [a] } else s := by
  rw [Memory.load] at h
  split at h
  · cases h
  · rename_i e' he
    cases h
    exact ⟨he, rfl⟩

theorem Memory.load_fresh {e : Node α} (ha : a ∉ s.freed) (he : s.node a = some e) :
    s.load a = some (e, s) := by
  rw [Memory.load, he]
  simp [ha]

/-- Accesses that have been noted stay noted. -/
structure Later (s s' : Memory α) : Prop where
  read : s.readFreed ≠ [] → s'.readFreed ≠ []
  wrote : s.wroteFreed ≠ [] → s'.wroteFreed ≠ []

theorem Later.refl (s : Memory α) : Later s s := ⟨id, id⟩

theorem Later.trans {s₁ s₂ s₃ : Memory α} (h : Later s₁ s₂) (h' : Later s₂ s₃) : Later s₁ s₃ :=
  ⟨fun hs => h'.read (h.read hs), fun hs => h'.wrote (h.wrote hs)⟩

theorem load_later {e : Node α} (h : s.load a = some (e, s')) : Later s s' := by
  obtain ⟨-, rfl⟩ := Memory.load_cases h
  split
  · exact ⟨fun _ => by simp, id⟩
  · exact Later.refl s

theorem setNext_later {next : Option Nat} (h : s.setNext a next = some s') : Later s s' := by
  rw [Memory.setNext] at h
  split at h
  · cases h
  · cases h
    refine ⟨id, fun hs => ?_⟩
    split
    · simp
    · exact hs

/-- What freeing an entry does. -/
theorem ulistFree_cases (h : ulistFree b a s = some s') :
    (∃ freed, s'.freed = freed ++ [a]) ∧ Later s s' := by
  rw [ulistFree] at h
  split at h
  · cases h
  · rename_i e s₁ hload
    obtain ⟨s₂, hunlinked, rfl⟩ := Option.map_eq_some_iff.mp h
    refine ⟨⟨_, rfl⟩, (load_later hload).trans ?_⟩
    split at hunlinked
    · cases hunlinked
      exact ⟨id, id⟩
    · split at hunlinked
      · cases hunlinked
      · have h₂ := setNext_later hunlinked
        exact ⟨h₂.read, h₂.wrote⟩

/-- What one round did, if it did come to its end. -/
theorem pass_succ (h : pass dead (n + 1) b (some a) s = some s') :
    ∃ e s₁ s₂ e' s₃, s.load a = some (e, s₁) ∧
      (if dead e.entry then ulistFree b a s₁ else some s₁) = some s₂ ∧
      s₂.load a = some (e', s₃) ∧ pass dead n (some a) e'.next s₃ = some s' := by
  rw [pass] at h
  split at h
  · cases h
  · rename_i e s₁ hload
    split at h
    · cases h
    · rename_i s₂ hfree
      split at h
      · cases h
      · rename_i e' s₃ hload'
        exact ⟨e, s₁, s₂, e', s₃, hload, hfree, hload', h⟩

theorem pass_later (h : pass dead n b p s = some s') : Later s s' := by
  induction n generalizing b p s with
  | zero =>
    cases p with
    | none =>
      cases h
      exact Later.refl _
    | some a => cases h
  | succ n ih =>
    cases p with
    | none =>
      cases h
      exact Later.refl _
    | some a =>
      obtain ⟨e, s₁, s₂, e', s₃, hload, hfree, hload', hrest⟩ := pass_succ h
      have hmiddle : Later s₁ s₂ := by
        split at hfree
        · exact (ulistFree_cases hfree).2
        · cases hfree
          exact Later.refl s₁
      exact (load_later hload).trans (hmiddle.trans ((load_later hload').trans (ih hrest)))

/-- A pass that removes an entry reads it afterwards. -/
theorem pass_removes (hlinked : Linked s.node p l) (hfreed : s.freed = [])
    (hdead : ∃ e ∈ l, dead e.2 = true) (h : pass dead n b p s = some s') :
    s'.readFreed ≠ [] := by
  induction l generalizing n b p s with
  | nil =>
    obtain ⟨e, he, -⟩ := hdead
    cases he
  | cons head rest ih =>
    obtain ⟨a, x⟩ := head
    obtain ⟨next, rfl, hnode, hrest⟩ := hlinked
    cases n with
    | zero => cases h
    | succ n =>
      obtain ⟨e, s₁, s₂, e', s₃, hload, hfree, hload', hpass⟩ := pass_succ h
      have hfresh := Memory.load_fresh (by rw [hfreed]; exact List.not_mem_nil) hnode
      obtain ⟨rfl, rfl⟩ := Prod.mk.inj (Option.some.inj (hload.symm.trans hfresh))
      split at hfree
      · obtain ⟨⟨freed, hfreed'⟩, -⟩ := ulistFree_cases hfree
        obtain ⟨-, rfl⟩ := Memory.load_cases hload'
        refine (pass_later hpass).read ?_
        rw [if_pos (by rw [hfreed']; simp)]
        simp
      · rename_i hx
        cases hfree
        obtain ⟨rfl, rfl⟩ := Prod.mk.inj (Option.some.inj (hload'.symm.trans hfresh))
        refine ih hrest hfreed ?_ hpass
        obtain ⟨e, he, hdeade⟩ := hdead
        rcases List.mem_cons.mp he with rfl | he
        · exact absurd hdeade hx
        · exact ⟨e, he, hdeade⟩

/-- A pass that finds nothing to remove changes nothing. -/
theorem pass_keeps (hlinked : Linked s.node p l) (hfreed : s.freed = [])
    (halive : ∀ e ∈ l, dead e.2 = false) : pass dead l.length b p s = some s := by
  induction l generalizing b p with
  | nil =>
    obtain rfl : p = none := hlinked
    rfl
  | cons head rest ih =>
    obtain ⟨a, x⟩ := head
    obtain ⟨next, rfl, hnode, hrest⟩ := hlinked
    have hfresh := Memory.load_fresh (by rw [hfreed]; exact List.not_mem_nil) hnode
    have hx : dead x = false := halive (a, x) (List.mem_cons_self ..)
    rw [List.length_cons, pass, hfresh]
    simp only [hx, Bool.false_eq_true, if_false, hfresh]
    exact ih hrest fun e he => halive e (List.mem_cons_of_mem _ he)

/-- The entries from a pointer on lead to another pointer. -/
def Segment (node : Nat → Option (Node α)) : Option Nat → List (Nat × α) → Option Nat → Prop
  | p, [], q => p = q
  | p, (a, x) :: rest, q => ∃ next, p = some a ∧ node a = some ⟨x, next⟩ ∧ Segment node next rest q

theorem Segment.concat {node : Nat → Option (Node α)} {x : α} {next : Option Nat}
    (h : Segment node b l (some a)) (ha : node a = some ⟨x, next⟩) :
    Segment node b (l ++ [(a, x)]) next := by
  induction l generalizing b with
  | nil => exact ⟨next, h, ha, rfl⟩
  | cons head rest ih =>
    obtain ⟨next', hb, hnode, hrest⟩ := h
    exact ⟨next', hb, hnode, ih hrest⟩

/-- The last entry can be made to lead elsewhere. -/
theorem Segment.redirect {node : Nat → Option (Node α)} {x : α} {q : Option Nat}
    (h : Segment node b (l ++ [(a, x)]) p) (hnew : a ∉ l.map (·.1)) :
    Segment (Function.update node a (some ⟨x, q⟩)) b (l ++ [(a, x)]) q := by
  induction l generalizing b with
  | nil =>
    obtain ⟨next, hb, -, -⟩ := h
    exact ⟨q, hb, Function.update_self .., rfl⟩
  | cons head rest ih =>
    obtain ⟨next, hb, hnode, hrest⟩ := h
    rw [List.map_cons, List.mem_cons, not_or] at hnew
    exact ⟨next, hb, by rwa [Function.update_of_ne (Ne.symm hnew.1)], ih hrest hnew.2⟩

theorem Segment.last {node : Nat → Option (Node α)} {x : α}
    (h : Segment node b (l ++ [(a, x)]) p) : node a = some ⟨x, p⟩ := by
  induction l generalizing b with
  | nil =>
    obtain ⟨next, -, hnode, rfl⟩ := h
    exact hnode
  | cons head rest ih =>
    obtain ⟨next, -, -, hrest⟩ := h
    exact ih hrest

theorem Segment.linked {node : Nat → Option (Node α)} (h : Segment node b l none) :
    Linked node b l := by
  induction l generalizing b with
  | nil => exact h
  | cons head rest ih =>
    obtain ⟨next, hb, hnode, hrest⟩ := h
    exact ⟨next, hb, hnode, ih hrest⟩

theorem Linked.update {node : Nat → Option (Node α)} {e : Option (Node α)}
    (h : Linked node p l) (hnew : a ∉ l.map (·.1)) :
    Linked (Function.update node a e) p l := by
  induction l generalizing p with
  | nil => exact h
  | cons head rest ih =>
    obtain ⟨next, hp, hnode, hrest⟩ := h
    rw [List.map_cons, List.mem_cons, not_or] at hnew
    exact ⟨next, hp, by rwa [Function.update_of_ne (Ne.symm hnew.1)], ih hrest hnew.2⟩

/-- Before a round: the kept entries lead to the rest, and the loop has noted the last of them,
or an entry that it has freed. -/
structure Between (s : Memory α) (kept rest : List (Nat × α)) (stale : Bool)
    (b p : Option Nat) : Prop where
  linked : Linked s.node p rest
  segment : Segment s.node s.head kept p
  nodup : ((kept ++ rest).map (·.1)).Nodup
  alive : ∀ e ∈ kept ++ rest, e.1 ∉ s.freed
  last : stale = false → ∀ l a x, kept = l ++ [(a, x)] → b = some a
  noted : stale = true → ∃ a ∈ s.freed, b = some a
  clean : s.wroteFreed = []

theorem LinkedList.between (l : LinkedList α) (b : Option Nat) :
    Between l.memory [] l.entries false b l.head where
  linked := l.linked
  segment := rfl
  nodup := l.nodup
  alive _ _ := List.not_mem_nil
  last _ l' a x h := by simp at h
  noted h := by cases h
  clean := rfl

section Between

variable {kept rest : List (Nat × α)} {stale : Bool} {x : α} {next : Option Nat}

theorem Between.node_eq (h : Between s kept ((a, x) :: rest) stale b (some a)) :
    ∃ next, s.node a = some ⟨x, next⟩ ∧ Linked s.node next rest ∧ a ∉ s.freed ∧
      a ∉ (kept ++ rest).map (·.1) := by
  obtain ⟨next, -, hnode, hlinked⟩ := h.linked
  refine ⟨next, hnode, hlinked, h.alive (a, x) (by simp), ?_⟩
  have hperm := (@List.perm_middle _ (a, x) kept rest).map (·.1)
  exact (List.nodup_cons.mp (hperm.nodup_iff.mp h.nodup)).1

/-- An entry that is kept is the noted one of the next round. -/
theorem Between.keep (h : Between s kept ((a, x) :: rest) stale b (some a))
    (hnode : s.node a = some ⟨x, next⟩) (hlinked : Linked s.node next rest) :
    Between s (kept ++ [(a, x)]) rest false (some a) next where
  linked := hlinked
  segment := h.segment.concat hnode
  nodup := by simpa using h.nodup
  alive e he := h.alive e (by simpa using he)
  last _ l c y hl := by
    obtain ⟨-, hlast⟩ := List.append_inj' hl rfl
    cases hlast
    rfl
  noted h := by cases h
  clean := h.clean

/-- What freeing does to the memory before the loop reads on. -/
def freedMemory (s : Memory α) (a : Nat) : Memory α :=
  { s with freed := s.freed ++ [a], readFreed := s.readFreed ++ [a] }

theorem Between.nodup_rest (h : Between s kept ((a, x) :: rest) stale b p) :
    ((kept ++ rest).map (·.1)).Nodup :=
  h.nodup.sublist (((List.sublist_cons_self (a, x) rest).append_left kept).map _)

theorem Between.alive_rest (h : Between s kept ((a, x) :: rest) stale b p)
    (ha : a ∉ (kept ++ rest).map (·.1)) : ∀ e ∈ kept ++ rest, e.1 ∉ s.freed ++ [a] := by
  intro e he hmem
  rcases List.mem_append.mp hmem with hmem | hmem
  · refine h.alive e ?_ hmem
    rcases List.mem_append.mp he with hk | hr
    · exact List.mem_append_left _ hk
    · exact List.mem_append_right _ (List.mem_cons_of_mem _ hr)
  · exact ha (List.mem_singleton.mp hmem ▸ List.mem_map_of_mem he)

/-- At the head of the list the variable that points to it is moved on. -/
theorem Between.removeHead (h : Between s [] ((a, x) :: rest) stale b (some a))
    (hlinked : Linked s.node next rest) (ha : a ∉ rest.map (·.1)) :
    Between (freedMemory { s with head := next } a) [] rest true (some a) next where
  linked := hlinked
  segment := rfl
  nodup := h.nodup_rest
  alive := h.alive_rest ha
  last hstale := by cases hstale
  noted _ := ⟨a, List.mem_append_right _ (List.mem_singleton.mpr rfl), rfl⟩
  clean := h.clean

/-- Behind an entry that was kept, that entry is made to lead to the rest. -/
theorem Between.removeBehind {c : Nat} {y : α}
    (h : Between s (kept ++ [(c, y)]) ((a, x) :: rest) stale b (some a))
    (hlinked : Linked s.node next rest) (ha : a ∉ ((kept ++ [(c, y)]) ++ rest).map (·.1)) :
    Between (freedMemory
        { s with node := Function.update s.node c (some ⟨y, next⟩) } a)
      (kept ++ [(c, y)]) rest true (some a) next where
  linked := by
    refine hlinked.update ?_
    have hnodup := h.nodup_rest
    rw [List.append_assoc, List.map_append, List.nodup_append] at hnodup
    have hc := hnodup.2.1
    rw [List.singleton_append, List.map_cons, List.nodup_cons] at hc
    exact hc.1
  segment := by
    refine h.segment.redirect ?_
    have hnodup := h.nodup_rest
    rw [List.append_assoc, List.map_append, List.nodup_append] at hnodup
    intro hc
    exact hnodup.2.2 c hc c (by simp) rfl
  nodup := h.nodup_rest
  alive := h.alive_rest ha
  last hstale := by cases hstale
  noted _ := ⟨a, List.mem_append_right _ (List.mem_singleton.mpr rfl), rfl⟩
  clean := h.clean

theorem Segment.head_ne (h : Segment s.node s.head kept p) (hne : kept ≠ [])
    (ha : a ∉ kept.map (·.1)) : s.head ≠ some a := by
  cases kept with
  | nil => exact absurd rfl hne
  | cons e kept =>
    obtain ⟨next, hhead, -, -⟩ := h
    rw [hhead]
    rintro heq
    cases heq
    exact ha (List.mem_cons_self ..)

/-- One round, for an entry that is kept; below for one at the head and one behind the noted
entry. -/
theorem Between.pass_keep (h : Between s kept ((a, x) :: rest) stale b (some a))
    (hnode : s.node a = some ⟨x, next⟩) (hx : dead x = false) :
    pass dead (n + 1) b (some a) s = pass dead n (some a) next s := by
  have hload := Memory.load_fresh (h.alive (a, x) (by simp)) hnode
  rw [pass, hload]
  simp only [hx, Bool.false_eq_true, if_false, hload]

theorem Between.pass_removeHead (h : Between s [] ((a, x) :: rest) stale b (some a))
    (hnode : s.node a = some ⟨x, next⟩) (hx : dead x = true) :
    pass dead (n + 1) b (some a) s =
      pass dead n (some a) next (freedMemory { s with head := next } a) := by
  have hload := Memory.load_fresh (h.alive (a, x) (by simp)) hnode
  have hhead : s.head = some a := h.segment
  have hfree : ulistFree b a s = some { s with head := next, freed := s.freed ++ [a] } := by
    rw [ulistFree, hload]
    simp only [hhead, if_true, Option.map_some]
  rw [pass, hload]
  simp only [hx, if_true, hfree, Memory.load, hnode, List.mem_append, List.mem_singleton, or_true,
    freedMemory]

theorem Between.pass_removeBehind {c : Nat} {y : α}
    (h : Between s (kept ++ [(c, y)]) ((a, x) :: rest) false b (some a))
    (hnode : s.node a = some ⟨x, next⟩) (hx : dead x = true)
    (ha : a ∉ ((kept ++ [(c, y)]) ++ rest).map (·.1)) :
    pass dead (n + 1) b (some a) s =
      pass dead n (some a) next (freedMemory
        { s with node := Function.update s.node c (some ⟨y, next⟩) } a) := by
  have hload := Memory.load_fresh (h.alive (a, x) (by simp)) hnode
  rw [List.map_append, List.mem_append, not_or] at ha
  have hhead := h.segment.head_ne (by simp) ha.1
  have hc : c ∉ s.freed := h.alive (c, y) (by simp)
  have hca : a ≠ c := by
    rintro rfl
    exact ha.1 (by simp)
  have hfree : ulistFree b a s = some { s with
      node := Function.update s.node c (some ⟨y, next⟩), freed := s.freed ++ [a] } := by
    rw [ulistFree, hload]
    simp only [hhead, if_false, h.last rfl kept c y rfl, Memory.setNext, h.segment.last,
      hc, Option.map_some]
  rw [pass, hload]
  simp only [hx, if_true, hfree, Memory.load, Function.update_of_ne hca, hnode, List.mem_append,
    List.mem_singleton, or_true, freedMemory]

/-- Where the noted entry has been freed, unlinking writes into it. -/
theorem Between.ulistFree_stale (h : Between s kept ((a, x) :: rest) true b (some a))
    (hnode : s.node a = some ⟨x, next⟩) (hne : kept ≠ [])
    (ha : a ∉ (kept ++ rest).map (·.1)) (hfree : ulistFree b a s = some s') :
    s'.wroteFreed ≠ [] := by
  obtain ⟨c, hc, rfl⟩ := h.noted rfl
  rw [List.map_append, List.mem_append, not_or] at ha
  have hhead := h.segment.head_ne hne ha.1
  rw [ulistFree, Memory.load_fresh (h.alive (a, x) (by simp)) hnode] at hfree
  simp only [hhead, if_false] at hfree
  obtain ⟨s₂, hset, rfl⟩ := Option.map_eq_some_iff.mp hfree
  rw [Memory.setNext] at hset
  split at hset
  · cases hset
  · cases hset
    simp [hc]

end Between

theorem not_isEmpty_concat {β : Type} (l : List β) (e : β) : (!(l ++ [e]).isEmpty) = true := by
  simp

/-- Where the abstract loop comes to its end, the pass does too, with the same entries left. -/
theorem pass_of_freeRest {kept rest : List (Nat × α)} {stale : Bool} {xs : List α}
    (h : Between s kept rest stale b p)
    (hfree : freeRest dead (!kept.isEmpty) stale (rest.map (·.2)) = some xs) :
    ∃ s', pass dead rest.length b p s = some s' ∧ s'.wroteFreed = [] ∧
      Linked s'.node s'.head (kept ++ rest.filter fun e => !dead e.2) ∧
      s'.freed = s.freed ++ (rest.filter fun e => dead e.2).map (·.1) := by
  induction rest generalizing s kept stale b p xs with
  | nil =>
    obtain rfl : p = none := h.linked
    refine ⟨s, rfl, h.clean, ?_, by simp⟩
    simpa using h.segment.linked
  | cons head rest ih =>
    obtain ⟨a, x⟩ := head
    obtain rfl : p = some a := h.linked.choose_spec.1
    obtain ⟨next, hnode, hlinked, hlive, hnew⟩ := h.node_eq
    rw [List.map_cons, freeRest] at hfree
    cases hx : dead x with
    | false =>
      rw [hx, if_neg Bool.false_ne_true] at hfree
      obtain ⟨ys, hrest, -⟩ := Option.map_eq_some_iff.mp hfree
      rw [← not_isEmpty_concat kept (a, x)] at hrest
      obtain ⟨s', hrun, hclean, hleft, hfreed⟩ := ih (h.keep hnode hlinked) hrest
      refine ⟨s', ?_, hclean, ?_, ?_⟩
      · rw [List.length_cons, h.pass_keep hnode hx]
        exact hrun
      · simpa [hx] using hleft
      · simpa [hx] using hfreed
    | true =>
      rw [hx, if_pos rfl] at hfree
      split at hfree
      · cases hfree
      · rename_i hstale
        have hnext : ∃ s', pass dead (rest.length + 1) b (some a) s = some s' ∧
            s'.wroteFreed = [] ∧
            Linked s'.node s'.head (kept ++ rest.filter fun e => !dead e.2) ∧
            s'.freed = s.freed ++ [a] ++ (rest.filter fun e => dead e.2).map (·.1) := by
          cases kept using List.reverseRecOn with
          | nil =>
            rw [h.pass_removeHead hnode hx]
            exact ih (h.removeHead hlinked (by simpa using hnew)) hfree
          | append_singleton l c =>
            obtain rfl : stale = false := by simpa using hstale
            rw [h.pass_removeBehind hnode hx hnew]
            exact ih (h.removeBehind hlinked hnew) hfree
        obtain ⟨s', hrun, hclean, hleft, hfreed⟩ := hnext
        refine ⟨s', hrun, hclean, ?_, ?_⟩
        · simpa [hx] using hleft
        · simpa [hx] using hfreed

/-- Where it has no result, the pass writes into a freed entry. -/
theorem pass_writes {kept rest : List (Nat × α)} {stale : Bool}
    (h : Between s kept rest stale b p)
    (hfree : freeRest dead (!kept.isEmpty) stale (rest.map (·.2)) = none)
    (hrun : pass dead n b p s = some s') : s'.wroteFreed ≠ [] := by
  induction rest generalizing s kept stale b p n with
  | nil => cases hfree
  | cons head rest ih =>
    obtain ⟨a, x⟩ := head
    obtain rfl : p = some a := h.linked.choose_spec.1
    obtain ⟨next, hnode, hlinked, hlive, hnew⟩ := h.node_eq
    rw [List.map_cons, freeRest] at hfree
    cases n with
    | zero => cases hrun
    | succ n =>
      cases hx : dead x with
      | false =>
        rw [hx, if_neg Bool.false_ne_true, Option.map_eq_none_iff] at hfree
        rw [← not_isEmpty_concat kept (a, x)] at hfree
        rw [h.pass_keep hnode hx] at hrun
        exact ih (h.keep hnode hlinked) hfree hrun
      | true =>
        rw [hx, if_pos rfl] at hfree
        split at hfree
        · rename_i hstale
          obtain ⟨hkept, rfl⟩ := Bool.and_eq_true_iff.mp hstale
          obtain ⟨e, s₁, s₂, e', s₃, hload, hmiddle, hload', hrest⟩ := pass_succ hrun
          have hfresh := Memory.load_fresh hlive hnode
          obtain ⟨rfl, rfl⟩ := Prod.mk.inj (Option.some.inj (hload.symm.trans hfresh))
          rw [if_pos hx] at hmiddle
          have hwrote := h.ulistFree_stale hnode (by simpa using hkept) hnew hmiddle
          exact (pass_later hrest).wrote ((load_later hload').wrote hwrote)
        · rename_i hstale
          cases kept using List.reverseRecOn with
          | nil =>
            rw [h.pass_removeHead hnode hx] at hrun
            exact ih (h.removeHead hlinked (by simpa using hnew)) hfree hrun
          | append_singleton l c =>
            obtain rfl : stale = false := by simpa using hstale
            rw [h.pass_removeBehind hnode hx hnew] at hrun
            exact ih (h.removeBehind hlinked hnew) hfree hrun

/-- `freeEntries` is what a pass does as long as freed entries keep what they held: it ends with
the same entries where it has a result, and writes into a freed entry where it has none. -/
theorem pass_refines_freeEntries (l : LinkedList α) (b : Option Nat) :
    (∀ xs, freeEntries dead (l.entries.map (·.2)) = some xs →
      ∃ n s entries, pass dead n b l.head l.memory = some s ∧ s.wroteFreed = [] ∧
        Linked s.node s.head entries ∧ entries.map (·.2) = xs ∧
        s.freed = (l.entries.filter fun e => dead e.2).map (·.1)) ∧
    (freeEntries dead (l.entries.map (·.2)) = none →
      ∀ n s, pass dead n b l.head l.memory = some s → s.wroteFreed ≠ []) := by
  constructor
  · intro xs hfree
    obtain ⟨s, hrun, hclean, hleft, hfreed⟩ := pass_of_freeRest (l.between b) hfree
    refine ⟨l.entries.length, s, _, hrun, hclean, hleft, ?_, ?_⟩
    · rw [freeEntries_eq_filter hfree, List.nil_append, List.filter_map]
      rfl
    · simpa [LinkedList.memory] using hfreed
  · intro hfree n s hrun
    exact pass_writes (l.between b) hfree hrun

/-- A run that changes nothing is right where there is nothing to remove. -/
theorem right_of_none_dead {run : Nat → Memory α → Option (Memory α)} {l : LinkedList α}
    (halive : ∀ e ∈ l.entries, dead e.2 = false) (hrun : run n l.memory = some l.memory) :
    Right dead run l := by
  have hnone : (l.entries.filter fun e => dead e.2) = [] :=
    List.filter_eq_nil_iff.mpr fun e he => by simp [halive e he]
  have hall : (l.entries.filter fun e => !dead e.2) = l.entries :=
    List.filter_eq_self.mpr fun e he => by simp [halive e he]
  refine ⟨n, l.memory, hrun, rfl, rfl, ?_, ?_⟩
  · rw [hnone]
    rfl
  · rw [hall]
    exact l.linked

theorem right_iff_none_dead (l : LinkedList α) (b : Option Nat) :
    Right dead (fun n s => pass dead n b s.head s) l ↔ ∀ e ∈ l.entries, dead e.2 = false := by
  constructor
  · rintro ⟨n, s, hrun, hread, -⟩ e he
    by_contra hdead
    rw [Bool.not_eq_false] at hdead
    exact pass_removes l.linked rfl ⟨e, he, hdead⟩ hrun hread
  · intro halive
    exact right_of_none_dead halive (pass_keeps l.linked rfl halive)

/-- A removal pass does what it is for exactly when it has nothing to remove. -/
theorem removal_iff (L : Limits) (timeCounter : Int) (req : Option Request) (b : Option Nat)
    (logins : LinkedList Login) (errlogs : LinkedList ErrloginEntry) :
    (Right (sameIp req) (freeFromLoginListByIp req) logins ↔
      ∀ e ∈ logins.entries, sameIp req e.2 = false) ∧
    (Right (fun _ => true) freeLoginList logins ↔ logins.entries = []) ∧
    (Right (expired L timeCounter) (expireLogins L timeCounter b) logins ↔
      ∀ e ∈ logins.entries, expired L timeCounter e.2 = false) ∧
    (Right (errExpired L timeCounter) (expireErrlogs L timeCounter b) errlogs ↔
      ∀ e ∈ errlogs.entries, errExpired L timeCounter e.2 = false) := by
  refine ⟨?_, ?_, right_iff_none_dead logins b, right_iff_none_dead errlogs b⟩
  · cases req with
    | none =>
      have halive : ∀ e ∈ logins.entries, sameIp none e.2 = false := fun e _ => rfl
      exact iff_of_true (right_of_none_dead (n := 0) halive rfl) halive
    | some req => exact right_iff_none_dead logins none
  · refine (right_iff_none_dead logins none).trans ?_
    constructor
    · intro h
      exact List.eq_nil_iff_forall_not_mem.mpr fun e he => Bool.noConfusion (h e he)
    · intro h e he
      rw [h] at he
      cases he

def sampleLogin : Login where
  priv := 0
  directory := []
  lastTime := 0
  remoteIpAddr := Texts.ascii "192.168.1.2"
  sessionId := []
  name := []
  remoteAccess := false
  firstTime := 0

/-- A list of one login. -/
def oneLogin : LinkedList Login where
  node := fun a => if a = 4096 then some ⟨sampleLogin, none⟩ else none
  head := some 4096
  entries := [(4096, sampleLogin)]
  linked := ⟨none, rfl, rfl, rfl⟩
  nodup := List.nodup_cons.mpr ⟨List.not_mem_nil, List.nodup_nil⟩

/-- The pass frees the only entry and reads its `next`. -/
theorem freed_login_read : ¬Right (fun _ => true) freeLoginList oneLogin := by
  rintro ⟨n, s, hrun, hread, -⟩
  exact pass_removes oneLogin.linked rfl ⟨_, List.mem_singleton.mpr rfl, rfl⟩ hrun hread

end LoginRemoval
