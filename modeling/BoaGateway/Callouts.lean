import BoaGateway.LinkedSlots
import Mathlib.Data.Fintype.Card

/-!
# The callout list

`subr_timer.c`: a list of objects that belong to the callers, sorted by the time at which their
functions are to be called. What a function does when it is called, the list's other users may do
too: arm, arm again and cancel. The machine here takes one operation after the other, with the
clock as it is read; a call runs until it returns to `calltimeout`.
-/

namespace Callouts

open LinkedSlots

/-- `struct timespec`, with a `time_t` of 64 bits: the seconds of the monotonic clock, which counts
from the start of the system, and the `int` of a delay added to them stay in it, and they are
integers here. -/
structure Time where
  sec : Int
  nsec : Int
  deriving DecidableEq

/-- The test in `timeout_utility`. -/
def earlier (a b : Time) : Bool :=
  decide (a.sec < b.sec) || (decide (a.sec = b.sec) && decide (a.nsec < b.nsec))

/-- The test in `calltimeout`. -/
def due (a now : Time) : Bool :=
  decide (a.sec < now.sec) || (decide (a.sec = now.sec) && decide (a.nsec ≤ now.nsec))

/-- The variable `callout` and the members of so many objects. -/
structure Memory (N : Nat) extends Cells (Fin N) where
  cTime : Fin N → Time
  cArg : Fin N → Nat
  cFunc : Fin N → Nat

variable {N : Nat}

/-- The loop of `untimeout_utility`, and what it does to the object that it finds. A walk over
more slots than there are would not end. -/
def untimeoutUtility (handle : Fin N) (s : Memory N) : Option (Memory N) :=
  (walk s.toCells (· == handle) (N + 1) .head).map fun copp =>
    match s.load copp with
    | none => s
    | some freep => { s with toCells := s.store copp (s.next freep) }

/-- `timeout_utility`, when the clock stands at `now`. -/
def timeoutUtility (func arg time : Nat) (handle : Fin N) (now : Time) (s : Memory N) :
    Option (Memory N) :=
  (untimeoutUtility handle s).bind fun s =>
    let s :=
      { s with
        cArg := Function.update s.cArg handle arg
        cFunc := Function.update s.cFunc handle func
        cTime := Function.update s.cTime handle ⟨now.sec + time, now.nsec⟩ }
    (walk s.toCells (fun p => earlier (s.cTime handle) (s.cTime p)) (N + 1) .head).map fun pp =>
      { s with toCells := (s.store (.next handle) (s.load pp)).store pp (some handle) }

/-- What is noted of a run. -/
inductive Event (N : Nat) where
  | armed (handle : Fin N) (func arg : Nat) (expiry : Time)
  | cancelled (handle : Fin N)
  | called (handle : Fin N) (func arg : Nat) (now : Time)

def Event.handle : Event N → Fin N
  | .armed h _ _ _ => h
  | .cancelled h => h
  | .called h _ _ _ => h

/-- The memory, the events with the last one first, how many `calltimeout` are going on, and
whether the loop of the innermost one is at work or a function. -/
structure Machine (N : Nat) extends Memory N where
  log : List (Event N)
  depth : Nat
  looping : Bool

/-- The operations of the program and of the functions called, a round of the loop of
`calltimeout`, and the return of a function that was called. -/
inductive Action (N : Nat) where
  | timeout (func arg time : Nat) (handle : Fin N) (now : Time)
  | untimeout (handle : Fin N)
  | calltimeout
  | round (now : Time)
  | ret

def Machine.step (m : Machine N) (a : Action N) : Option (Machine N) :=
  match a, m.looping with
  | .timeout func arg time handle now, false =>
    (timeoutUtility func arg time handle now m.toMemory).map fun s =>
      { m with
        toMemory := s
        log := .armed handle func arg ⟨now.sec + time, now.nsec⟩ :: m.log }
  | .untimeout handle, false =>
    (untimeoutUtility handle m.toMemory).map fun s =>
      { m with toMemory := s, log := .cancelled handle :: m.log }
  | .calltimeout, false => some { m with depth := m.depth + 1, looping := true }
  | .ret, false => if m.depth = 0 then none else some { m with looping := true }
  | .round now, true =>
    match m.head with
    | none => some { m with depth := m.depth - 1, looping := false }
    | some p =>
      if due (m.cTime p) now then
        some
          { m with
            head := m.next p
            log := .called p (m.cFunc p) (m.cArg p) now :: m.log
            looping := false }
      else some { m with depth := m.depth - 1, looping := false }
  | _, _ => none

def run : List (Action N) → Machine N → Option (Machine N)
  | [], m => some m
  | a :: actions, m => (m.step a).bind (run actions)

/-- An empty list, and objects that hold anything. -/
def start (s : Memory N) : Machine N where
  toMemory := { s with head := none }
  log := []
  depth := 0
  looping := false

/-- The last event of an object. -/
def newest (h : Fin N) (log : List (Event N)) : Option (Event N) :=
  log.find? fun e => e.handle == h

/-- The place of the last event of an object in the order of events. -/
def stamp (h : Fin N) (log : List (Event N)) : Nat :=
  (log.dropWhile fun e => e.handle != h).length

/-- Sorted by time, and by the order of arming at equal times. -/
def Before (m : Machine N) (a b : Fin N) : Prop :=
  earlier (m.cTime a) (m.cTime b) = true ∨
    m.cTime a = m.cTime b ∧ stamp a m.log < stamp b m.log

/-- Every call is of a function that was armed, and not cancelled, armed again or called since;
it is not called before its time, and none that is armed then is ahead of it. -/
def Lawful (log : List (Event N)) : Prop :=
  ∀ newer older h func arg now, log = newer ++ .called h func arg now :: older →
    ∃ expiry, newest h older = some (.armed h func arg expiry) ∧ due expiry now = true ∧
      ∀ k func' arg' expiry', newest k older = some (.armed k func' arg' expiry') →
        k = h ∨ earlier expiry expiry' = true ∨ expiry = expiry' ∧ stamp h older < stamp k older

/-- The list holds the armed objects, each of them once. -/
structure Listed (m : Machine N) (hs : List (Fin N)) : Prop where
  chain : Chain m.toCells .head hs
  nodup : hs.Nodup
  sorted : hs.Pairwise (Before m)
  armed : ∀ h, h ∈ hs ↔ ∃ func arg expiry, newest h m.log = some (.armed h func arg expiry)
  held : ∀ h func arg expiry, newest h m.log = some (.armed h func arg expiry) →
    m.cFunc h = func ∧ m.cArg h = arg ∧ m.cTime h = expiry

/-- The clock stands at `now` and only positive times are armed. -/
def StandsAt (now : Time) : Action N → Prop
  | .timeout _ _ time _ now' => now' = now ∧ 0 < time
  | .round now' => now' = now
  | _ => True

/-- Where the program or a function is at work, it may do anything but return from nowhere. -/
def Allowed (m : Machine N) : Action N → Prop
  | .round _ => m.looping = true
  | .ret => m.looping = false ∧ m.depth ≠ 0
  | _ => m.looping = false

def Event.isCall : Event N → Bool
  | .called _ _ _ _ => true
  | _ => false

variable {a b c : Time} {h k handle : Fin N} {log : List (Event N)} {e : Event N}

theorem earlier_iff : earlier a b = true ↔ a.sec < b.sec ∨ a.sec = b.sec ∧ a.nsec < b.nsec := by
  simp [earlier]

theorem due_iff : due a b = true ↔ earlier b a = false := by
  rw [← Bool.not_eq_true, earlier_iff]
  simp only [due, Bool.or_eq_true, Bool.and_eq_true, decide_eq_true_eq]
  omega

theorem earlier_trans (hab : earlier a b = true) (hbc : earlier b c = true) :
    earlier a c = true := by
  rw [earlier_iff] at *
  omega

theorem earlier_or_eq (h : earlier a b = false) : earlier b a = true ∨ b = a := by
  rw [← Bool.not_eq_true, earlier_iff] at h
  rw [earlier_iff]
  rcases a with ⟨asec, ansec⟩
  rcases b with ⟨bsec, bnsec⟩
  simp only [Time.mk.injEq] at *
  omega

theorem newest_cons : newest h (e :: log) = if e.handle = h then some e else newest h log := by
  rw [newest, List.find?_cons]
  by_cases heq : e.handle = h
  · simp [heq]
  · rw [if_neg heq, beq_false_of_ne heq]
    rfl

theorem stamp_cons :
    stamp h (e :: log) = if e.handle = h then log.length + 1 else stamp h log := by
  rw [stamp, List.dropWhile_cons]
  by_cases heq : e.handle = h
  · simp [heq]
  · simp [heq, stamp]

theorem stamp_le : stamp h log ≤ log.length := (List.dropWhile_sublist _).length_le

/-- A call is added to the events. -/
theorem Lawful.call {func arg : Nat} {now expiry : Time} (hlog : Lawful log)
    (hnewest : newest h log = some (.armed h func arg expiry)) (hdue : due expiry now = true)
    (hfirst : ∀ k func' arg' expiry', newest k log = some (.armed k func' arg' expiry') →
      k = h ∨ earlier expiry expiry' = true ∨ expiry = expiry' ∧ stamp h log < stamp k log) :
    Lawful (.called h func arg now :: log) := by
  intro newer older h' func' arg' now' heq
  cases newer with
  | nil =>
    obtain ⟨hhead, rfl⟩ := List.cons.inj heq
    cases hhead
    exact ⟨expiry, hnewest, hdue, hfirst⟩
  | cons e newer => exact hlog newer older h' func' arg' now' (List.cons.inj heq).2

theorem Lawful.other (hlog : Lawful log) (he : e.isCall = false) : Lawful (e :: log) := by
  intro newer older h' func' arg' now' heq
  cases newer with
  | nil =>
    obtain ⟨rfl, -⟩ := List.cons.inj heq
    cases he
  | cons e newer => exact hlog newer older h' func' arg' now' (List.cons.inj heq).2

variable {s s' : Memory N} {hs : List (Fin N)}

theorem length_le (h : hs.Nodup) : hs.length < N + 1 := by
  have hle := h.length_le_card
  rw [Fintype.card_fin] at hle
  omega

theorem head_apart (hs : List (Fin N)) : Apart .head hs := fun _ _ => nofun

/-- The object is linked out, if it is in the list. -/
theorem untimeout_spec (hchain : Chain s.toCells .head hs) (hnodup : hs.Nodup)
    (handle : Fin N) :
    ∃ cells, untimeoutUtility handle s = some { s with toCells := cells } ∧
      Chain cells .head (hs.erase handle) := by
  obtain ⟨front, back, rfl, hfront, hback, hwalk, hload⟩ :
      ∃ front back, hs = front ++ back ∧ (∀ a ∈ front, (a == handle) = false) ∧
        (∀ a ∈ back.head?, (a == handle) = true) ∧
          walk s.toCells (· == handle) (N + 1) .head = some (slotAfter .head front) ∧
            s.load (slotAfter .head front) = back.head? :=
    walk_chain hchain (length_le hnodup)
  have hnot : handle ∉ front := fun hmem => absurd (hfront handle hmem) (by simp)
  rw [untimeoutUtility, hwalk, Option.map_some, hload, List.erase_append_right _ hnot]
  cases back with
  | nil => exact ⟨s.toCells, rfl, hchain⟩
  | cons b back =>
    obtain rfl : b = handle := by simpa using hback b rfl
    rw [List.erase_cons_head]
    exact ⟨_, rfl, hchain.unlink hnodup (head_apart _)⟩

/-- The object is linked in behind those that are not due later. -/
theorem timeout_spec (hchain : Chain s.toCells .head hs) (hnodup : hs.Nodup)
    (func arg time : Nat) (handle : Fin N) (now : Time) :
    ∃ cells front back, hs.erase handle = front ++ back ∧
      timeoutUtility func arg time handle now s = some
        { toCells := cells
          cTime := Function.update s.cTime handle ⟨now.sec + time, now.nsec⟩
          cArg := Function.update s.cArg handle arg
          cFunc := Function.update s.cFunc handle func } ∧
      Chain cells .head (front ++ handle :: back) ∧
      (∀ k ∈ front, earlier ⟨now.sec + time, now.nsec⟩ (s.cTime k) = false) ∧
      ∀ k ∈ back.head?, earlier ⟨now.sec + time, now.nsec⟩ (s.cTime k) = true := by
  obtain ⟨cells, hremoved, hrest⟩ := untimeout_spec hchain hnodup handle
  have hnodup' : (hs.erase handle).Nodup := hnodup.erase handle
  have hnot : handle ∉ hs.erase handle := hnodup.not_mem_erase
  set cTime := Function.update s.cTime handle ⟨now.sec + time, now.nsec⟩ with hcTime
  obtain ⟨front, back, hsplit, hfront, hback, hwalk, hload⟩ :
      ∃ front back, hs.erase handle = front ++ back ∧
        (∀ a ∈ front, earlier (cTime handle) (cTime a) = false) ∧
        (∀ a ∈ back.head?, earlier (cTime handle) (cTime a) = true) ∧
          walk cells (fun p => earlier (cTime handle) (cTime p)) (N + 1) .head =
            some (slotAfter .head front) ∧ cells.load (slotAfter .head front) = back.head? :=
    walk_chain hrest (length_le hnodup')
  rw [hsplit] at hrest hnodup' hnot
  have hne {k : Fin N} (hk : k ∈ front ++ back) : k ≠ handle := fun heq => hnot (heq ▸ hk)
  refine ⟨_, front, back, hsplit, ?_, hrest.link hnodup' hnot (head_apart _) nofun,
    fun k hk => ?_, fun k hk => ?_⟩
  · rw [timeoutUtility, hremoved, Option.bind_some]
    dsimp only
    rw [hwalk, Option.map_some, hload]
  · have h := hfront k hk
    rwa [hcTime, Function.update_self,
      Function.update_of_ne (hne (List.mem_append_left _ hk))] at h
  · have h := hback k hk
    have hmem : k ∈ front ++ back := List.mem_append_right _ (List.mem_of_mem_head? hk)
    rwa [hcTime, Function.update_self, Function.update_of_ne (hne hmem)] at h

variable {m m' : Machine N}

theorem Before.frame {a b : Fin N} (h : Before m a b) (ha : m'.cTime a = m.cTime a)
    (hb : m'.cTime b = m.cTime b) (hsa : stamp a m'.log = stamp a m.log)
    (hsb : stamp b m'.log = stamp b m.log) : Before m' a b := by
  rw [Before, ha, hb, hsa, hsb]
  exact h

/-- The first of a list is not later than the others. -/
theorem Before.of_earlier {t : Time} {a b : Fin N} (h : Before m a b)
    (ht : earlier t (m.cTime a) = true) : earlier t (m.cTime b) = true := by
  rcases h with h | ⟨h, -⟩
  · exact earlier_trans ht h
  · rwa [h] at ht

theorem Listed.timeout (h : Listed m hs) (hloop : m.looping = false) (func arg time : Nat)
    (handle : Fin N) (now : Time) :
    ∃ m' hs', m.step (.timeout func arg time handle now) = some m' ∧ Listed m' hs' ∧
      m'.log = .armed handle func arg ⟨now.sec + time, now.nsec⟩ :: m.log ∧
      (∀ k ∈ hs', k = handle ∨ k ∈ hs) ∧
      m'.cTime = Function.update m.cTime handle ⟨now.sec + time, now.nsec⟩ := by
  obtain ⟨cells, front, back, hsplit, hstep, hchain, hfront, hback⟩ :=
    timeout_spec h.chain h.nodup func arg time handle now
  have hnodup : (front ++ back).Nodup := hsplit ▸ h.nodup.erase handle
  have hnot : handle ∉ front ++ back := hsplit ▸ h.nodup.not_mem_erase
  have hne {k : Fin N} (hk : k ∈ front ++ back) : k ≠ handle := fun heq => hnot (heq ▸ hk)
  set t : Time := ⟨now.sec + time, now.nsec⟩ with ht
  let m₁ : Machine N :=
    { m with
      toCells := cells
      cTime := Function.update m.cTime handle t
      cArg := Function.update m.cArg handle arg
      cFunc := Function.update m.cFunc handle func
      log := .armed handle func arg t :: m.log
      looping := false }
  have hother {k : Fin N} (hk : k ∈ front ++ back) :
      m₁.cTime k = m.cTime k ∧ stamp k m₁.log = stamp k m.log :=
    ⟨Function.update_of_ne (hne hk) _ _, stamp_cons.trans (if_neg (hne hk).symm)⟩
  have hself : m₁.cTime handle = t ∧ stamp handle m₁.log = m.log.length + 1 :=
    ⟨Function.update_self .., stamp_cons.trans (if_pos rfl)⟩
  have hsorted : (front ++ back).Pairwise (Before m₁) := by
    have hold : (front ++ back).Pairwise (Before m) := hsplit ▸ h.sorted.sublist List.erase_sublist
    refine hold.imp_of_mem fun ha hb hab => ?_
    exact hab.frame (hother ha).1 (hother hb).1 (hother ha).2 (hother hb).2
  obtain ⟨hsfront, hsback, hacross⟩ := List.pairwise_append.mp hsorted
  refine ⟨m₁, front ++ handle :: back, ?_, ⟨hchain, ?_, ?_, ?_, ?_⟩, rfl, ?_, rfl⟩
  · simp only [Machine.step, hloop]
    rw [hstep]
    rfl
  · refine (List.nodup_middle).mpr (List.nodup_cons.mpr ⟨hnot, hnodup⟩)
  · refine List.pairwise_append.mpr ⟨hsfront, List.pairwise_cons.mpr ⟨fun b hb => ?_, hsback⟩,
      fun a ha b hb => ?_⟩
    · -- the first one behind is later, and the others are behind it
      left
      rw [hself.1, (hother (List.mem_append_right _ hb)).1]
      cases back with
      | nil => cases hb
      | cons b₀ back =>
        have hb₀ := hback b₀ rfl
        rcases List.mem_cons.mp hb with rfl | hb'
        · exact hb₀
        · have hbefore := (List.pairwise_cons.mp hsback).1 b hb'
          have hb₀' := (hother (List.mem_append_right front List.mem_cons_self)).1
          have hlater := Before.of_earlier (t := t) hbefore (by rwa [hb₀'])
          rwa [(hother (List.mem_append_right _ hb)).1] at hlater
    · rcases List.mem_cons.mp hb with rfl | hb'
      · have hmem : a ∈ front ++ back := List.mem_append_left _ ha
        rw [Before, hself.1, hself.2, (hother hmem).1, (hother hmem).2]
        refine (earlier_or_eq (hfront a ha)).imp_right fun heq => ⟨heq, ?_⟩
        exact Nat.lt_succ_of_le stamp_le
      · exact hacross a ha b hb'
  · intro k
    have hmem : k ∈ front ++ handle :: back ↔ k = handle ∨ k ∈ front ++ back := by
      simp only [List.mem_append, List.mem_cons]
      tauto
    rw [hmem, newest_cons]
    by_cases hk : k = handle
    · subst hk
      exact iff_of_true (.inl rfl) ⟨func, arg, t, if_pos rfl⟩
    · have hk' : ¬(Event.armed handle func arg t).handle = k := fun heq => hk heq.symm
      rw [if_neg hk', ← h.armed, ← hsplit, List.mem_erase_of_ne hk]
      exact or_iff_right hk
  · intro k func' arg' expiry hk
    by_cases heq : k = handle
    · subst heq
      cases (newest_cons.trans (if_pos rfl)).symm.trans hk
      exact ⟨Function.update_self .., Function.update_self .., Function.update_self ..⟩
    · have hk' : ¬(Event.armed handle func arg t).handle = k := fun h' => heq h'.symm
      rw [newest_cons, if_neg hk'] at hk
      obtain ⟨hfunc, harg, htime⟩ := h.held k func' arg' expiry hk
      refine ⟨?_, ?_, ?_⟩
      · exact (Function.update_of_ne heq _ _).trans hfunc
      · exact (Function.update_of_ne heq _ _).trans harg
      · exact (Function.update_of_ne heq _ _).trans htime
  · intro k hk
    rcases List.mem_append.mp hk with hk | hk
    · exact .inr (List.mem_of_mem_erase (hsplit ▸ List.mem_append_left _ hk))
    · rcases List.mem_cons.mp hk with rfl | hk
      · exact .inl rfl
      · exact .inr (List.mem_of_mem_erase (hsplit ▸ List.mem_append_right _ hk))

/-- The object is no longer armed. -/
theorem Listed.remove (h : Listed m hs) {cells : Cells (Fin N)}
    (hchain : Chain cells .head (hs.erase handle)) (hhandle : e.handle = handle)
    (harmed : ∀ func arg expiry, e ≠ .armed handle func arg expiry) (depth : Nat) :
    Listed { m with toCells := cells, log := e :: m.log, depth := depth, looping := false }
      (hs.erase handle) := by
  have hother {k : Fin N} (hk : k ≠ handle) : ¬e.handle = k := fun heq => hk (heq ▸ hhandle)
  have hne {k : Fin N} (hk : k ∈ hs.erase handle) : k ≠ handle :=
    fun heq => h.nodup.not_mem_erase (heq ▸ hk)
  refine ⟨hchain, h.nodup.erase handle, ?_, fun k => ?_, fun k func arg expiry hk => ?_⟩
  · refine (h.sorted.sublist List.erase_sublist).imp_of_mem fun ha hb hab => ?_
    exact hab.frame rfl rfl (stamp_cons.trans (if_neg (hother (hne ha))))
      (stamp_cons.trans (if_neg (hother (hne hb))))
  · dsimp only
    rw [newest_cons]
    by_cases hk : k = handle
    · subst hk
      rw [if_pos hhandle]
      refine iff_of_false h.nodup.not_mem_erase ?_
      rintro ⟨func, arg, expiry, heq⟩
      exact harmed func arg expiry (Option.some.inj heq)
    · rw [if_neg (hother hk), List.mem_erase_of_ne hk]
      exact h.armed k
  · dsimp only at hk
    rw [newest_cons] at hk
    split at hk
    · rename_i heq
      obtain rfl := heq.symm.trans hhandle
      exact absurd (Option.some.inj hk) (harmed func arg expiry)
    · exact h.held k func arg expiry hk

/-- What is not in the list and the events does not matter. -/
theorem Listed.control (h : Listed m hs) (depth : Nat) (looping : Bool) :
    Listed { m with depth := depth, looping := looping } hs :=
  ⟨h.chain, h.nodup, h.sorted, h.armed, h.held⟩

/-- The first object of the list is the one that is ahead. -/
theorem Listed.first {p : Fin N} (h : Listed m (p :: hs)) {k : Fin N} {func arg : Nat}
    {expiry : Time} (hk : newest k m.log = some (.armed k func arg expiry)) :
    k = p ∨ earlier (m.cTime p) expiry = true ∨
      m.cTime p = expiry ∧ stamp p m.log < stamp k m.log := by
  obtain ⟨-, -, htime⟩ := h.held k func arg expiry hk
  rcases List.mem_cons.mp ((h.armed k).mpr ⟨func, arg, expiry, hk⟩) with rfl | hmem
  · exact .inl rfl
  · have hbefore := (List.pairwise_cons.mp h.sorted).1 k hmem
    rw [Before, htime] at hbefore
    exact .inr hbefore

/-- What a round of the loop does: it returns when nothing is due, or calls the first function. -/
theorem Listed.round (h : Listed m hs) (hloop : m.looping = true) (now : Time) :
    (∃ m', m.step (.round now) = some m' ∧ m'.depth = m.depth - 1 ∧ m'.looping = false ∧
      m'.toMemory = m.toMemory ∧ m'.log = m.log ∧ Listed m' hs ∧
        ∀ k ∈ hs, due (m.cTime k) now = false) ∨
    ∃ p hs' m', hs = p :: hs' ∧ due (m.cTime p) now = true ∧ m.step (.round now) = some m' ∧
      m'.depth = m.depth ∧ m'.cTime = m.cTime ∧
        m'.log = .called p (m.cFunc p) (m.cArg p) now :: m.log ∧ Listed m' hs' := by
  have hhead : m.head = hs.head? := h.chain.load_eq
  cases hs with
  | nil =>
    left
    refine ⟨{ m with depth := m.depth - 1, looping := false }, ?_, rfl, rfl, rfl, rfl,
      h.control _ _, nofun⟩
    simp only [Machine.step, hloop, hhead, List.head?_nil]
  | cons p hs =>
    cases hdue : due (m.cTime p) now with
    | true =>
      right
      have hunlink : Chain (m.store (slotAfter .head []) (m.next p)) .head ([] ++ hs) :=
        Chain.unlink h.chain h.nodup (head_apart _)
      have herase : (p :: hs).erase p = hs := List.erase_cons_head ..
      let called : Machine N :=
        { m with
          head := m.next p
          log := .called p (m.cFunc p) (m.cArg p) now :: m.log
          looping := false }
      refine ⟨p, hs, called, rfl, hdue, ?_, rfl, rfl, rfl, ?_⟩
      · simp only [Machine.step, hloop, hhead, List.head?_cons, hdue, if_true]
        rfl
      · have hremoved : Listed called ((p :: hs).erase p) :=
          h.remove (e := .called p (m.cFunc p) (m.cArg p) now) (herase.symm ▸ hunlink) rfl
            (fun _ _ _ => nofun) m.depth
        rwa [herase] at hremoved
    | false =>
      left
      refine ⟨{ m with depth := m.depth - 1, looping := false }, ?_, rfl, rfl, rfl, rfl,
        h.control _ _, ?_⟩
      · simp only [Machine.step, hloop, hhead, List.head?_cons, hdue, Bool.false_eq_true,
          if_false]
      · refine List.forall_mem_cons.mpr ⟨hdue, fun k hk => ?_⟩
        have hlater := (List.pairwise_cons.mp h.sorted).1 k hk
        rw [← Bool.not_eq_true, due_iff] at hdue ⊢
        rw [Bool.not_eq_false] at hdue ⊢
        exact hlater.of_earlier hdue

theorem Listed.untimeout (h : Listed m hs) (hloop : m.looping = false) (handle : Fin N) :
    ∃ m', m.step (.untimeout handle) = some m' ∧ Listed m' (hs.erase handle) ∧
      m'.log = .cancelled handle :: m.log ∧ m'.cTime = m.cTime := by
  obtain ⟨cells, hstep, hchain⟩ := untimeout_spec h.chain h.nodup handle
  let cancelled : Machine N :=
    { m with toCells := cells, log := .cancelled handle :: m.log, looping := false }
  refine ⟨cancelled, ?_, ?_, rfl, rfl⟩
  · simp only [Machine.step, hloop]
    rw [hstep]
    rfl
  · exact h.remove (e := .cancelled handle) hchain rfl (fun _ _ _ => nofun) m.depth

/-- The state of a run: the list holds what is armed, and the calls so far were right. -/
structure Correct (m : Machine N) (hs : List (Fin N)) : Prop where
  listed : Listed m hs
  lawful : Lawful m.log

def calls (log : List (Event N)) : Nat := log.countP Event.isCall

/-- The listed objects that are due at a time. -/
def dueAt (m : Machine N) (hs : List (Fin N)) (now : Time) : List (Fin N) :=
  hs.filter fun k => due (m.cTime k) now

/-- One step: nothing that is allowed is stuck, the list and the calls stay right, and while the
clock stands, every call is of an object that was due before. -/
theorem Correct.step (h : Correct m hs) {a : Action N} (ha : Allowed m a) :
    ∃ m' hs', m.step a = some m' ∧ Correct m' hs' ∧
      ∀ now, StandsAt now a →
        calls m'.log + (dueAt m' hs' now).length ≤ calls m.log + (dueAt m hs now).length := by
  cases a with
  | timeout func arg time handle now =>
    obtain ⟨m', hs', hstep, hlisted, hlog, hmem, htime⟩ :=
      h.listed.timeout ha func arg time handle now
    refine ⟨m', hs', hstep, ⟨hlisted, hlog ▸ h.lawful.other rfl⟩, ?_⟩
    rintro now' ⟨rfl, hpos⟩
    have hsub : dueAt m' hs' now ⊆ dueAt m hs now := by
      intro k hk
      obtain ⟨hk, hdue⟩ := List.mem_filter.mp hk
      rw [htime] at hdue
      by_cases heq : k = handle
      · rw [heq, Function.update_self, due_iff, ← Bool.not_eq_true, earlier_iff] at hdue
        dsimp only at hdue
        omega
      · rw [Function.update_of_ne heq] at hdue
        exact List.mem_filter.mpr ⟨(hmem k hk).resolve_left heq, hdue⟩
    have hcalls : calls m'.log = calls m.log := by
      rw [hlog]
      exact List.countP_cons_of_neg (by simp [Event.isCall])
    have hlen := (List.subperm_of_subset (hlisted.nodup.filter _) hsub).length_le
    rw [hcalls]
    exact Nat.add_le_add_left hlen _
  | untimeout handle =>
    obtain ⟨m', hstep, hlisted, hlog, htime⟩ := h.listed.untimeout ha handle
    refine ⟨m', _, hstep, ⟨hlisted, hlog ▸ h.lawful.other rfl⟩, fun now _ => ?_⟩
    have hcalls : calls m'.log = calls m.log := by
      rw [hlog]
      exact List.countP_cons_of_neg (by simp [Event.isCall])
    rw [hcalls, dueAt, htime]
    exact Nat.add_le_add_left (List.erase_sublist.filter _).length_le _
  | calltimeout =>
    refine ⟨{ m with depth := m.depth + 1, looping := true }, hs, ?_,
      ⟨h.listed.control _ _, h.lawful⟩, fun _ _ => Nat.le_refl _⟩
    have hloop : m.looping = false := ha
    simp only [Machine.step, hloop]
  | ret =>
    refine ⟨{ m with looping := true }, hs, ?_, ⟨h.listed.control _ _, h.lawful⟩,
      fun _ _ => Nat.le_refl _⟩
    simp only [Machine.step, ha.1, if_neg ha.2]
  | round now =>
    rcases h.listed.round ha now with ⟨m', hstep, -, -, hmem, hlog, hlisted, -⟩ |
      ⟨p, hs', m', rfl, hdue, hstep, -, htime, hlog, hlisted⟩
    · refine ⟨m', hs, hstep, ⟨hlisted, hlog ▸ h.lawful⟩, fun now' _ => ?_⟩
      rw [hlog, dueAt, hmem]
      exact Nat.le_refl _
    · refine ⟨m', hs', hstep, ⟨hlisted, ?_⟩, ?_⟩
      · obtain ⟨func, arg, expiry, hnewest⟩ := (h.listed.armed p).mp List.mem_cons_self
        obtain ⟨hfunc, harg, hexpiry⟩ := h.listed.held p func arg expiry hnewest
        rw [hlog, hfunc, harg]
        refine h.lawful.call hnewest (hexpiry ▸ hdue) fun k func' arg' expiry' hk => ?_
        rw [← hexpiry]
        exact h.listed.first hk
      · rintro now' rfl
        have hcalls : calls m'.log = calls m.log + 1 := by
          rw [hlog]
          exact List.countP_cons_of_pos rfl
        have hlen : (dueAt m (p :: hs') now).length = (dueAt m' hs' now).length + 1 := by
          have hfilter := List.filter_cons_of_pos (p := fun k => due (m.cTime k) now) (l := hs') hdue
          rw [dueAt, hfilter, dueAt, htime, List.length_cons]
        rw [hcalls, hlen]
        omega

theorem step_allowed {a : Action N} (h : m.step a = some m') : Allowed m a := by
  cases a with
  | ret =>
    cases hloop : m.looping with
    | true => simp [Machine.step, hloop] at h
    | false =>
      refine ⟨hloop, fun hdepth => ?_⟩
      simp [Machine.step, hloop, hdepth] at h
  | round now =>
    cases hloop : m.looping with
    | true => exact hloop
    | false => simp [Machine.step, hloop] at h
  | _ =>
    cases hloop : m.looping with
    | true => simp [Machine.step, hloop] at h
    | false => exact hloop

theorem Correct.run (h : Correct m hs) {actions : List (Action N)}
    (hrun : run actions m = some m') :
    ∃ hs', Correct m' hs' ∧ ∀ now, (∀ a ∈ actions, StandsAt now a) →
      calls m'.log + (dueAt m' hs' now).length ≤ calls m.log + (dueAt m hs now).length := by
  induction actions generalizing m hs with
  | nil =>
    cases hrun
    exact ⟨hs, h, fun _ _ => Nat.le_refl _⟩
  | cons a actions ih =>
    obtain ⟨m₁, hstep, hrest⟩ := Option.bind_eq_some_iff.mp hrun
    obtain ⟨m₂, hs₁, hstep', h₁, hcalls₁⟩ := h.step (step_allowed hstep)
    obtain rfl := Option.some.inj (hstep.symm.trans hstep')
    obtain ⟨hs', h', hcalls⟩ := ih h₁ hrest
    refine ⟨hs', h', fun now hstands => ?_⟩
    obtain ⟨ha, hactions⟩ := List.forall_mem_cons.mp hstands
    exact (hcalls now hactions).trans (hcalls₁ now ha)

theorem start_correct (s : Memory N) : Correct (start s) [] := by
  refine ⟨⟨rfl, List.nodup_nil, List.Pairwise.nil, fun h => ?_, nofun⟩, ?_⟩
  · refine iff_of_false List.not_mem_nil ?_
    rintro ⟨func, arg, expiry, hnewest⟩
    cases hnewest
  · intro newer older h func arg now heq
    exact absurd heq.symm (List.append_ne_nil_of_right_ne_nil _ (List.cons_ne_nil _ _))

/-- After any run: the list and the calls are right; whatever may be done next gets done; a round
of the loop calls the first function of the list or returns with nothing due in it; and as long
as the clock stands and only positive times are armed, no more functions are called than were
due. -/
theorem callouts_correct (s : Memory N) (actions : List (Action N)) (m : Machine N)
    (hrun : run actions (start s) = some m) :
    ∃ hs, Correct m hs ∧
      (∀ a, Allowed m a → (m.step a).isSome = true) ∧
      (∀ now m', m.step (.round now) = some m' →
        (m'.depth = m.depth - 1 ∧ m'.looping = false ∧ m'.toMemory = m.toMemory ∧
          m'.log = m.log ∧ ∀ k ∈ hs, due (m.cTime k) now = false) ∨
        ∃ p hs', hs = p :: hs' ∧ m'.depth = m.depth ∧ Correct m' hs' ∧
          m'.log = .called p (m.cFunc p) (m.cArg p) now :: m.log) ∧
      ∀ now actions' m', (∀ a ∈ actions', StandsAt now a) → run actions' m = some m' →
        calls m'.log ≤ calls m.log + (dueAt m hs now).length := by
  obtain ⟨hs, h, -⟩ := (start_correct s).run hrun
  refine ⟨hs, h, fun a ha => ?_, fun now m' hstep => ?_, fun now actions' m' hstands hrun' => ?_⟩
  · obtain ⟨m', hs', hstep, -⟩ := h.step ha
    rw [hstep]
    rfl
  · obtain ⟨m₁, hs₁, hstep₁, h₁, -⟩ := h.step (step_allowed hstep)
    obtain rfl := Option.some.inj (hstep.symm.trans hstep₁)
    rcases h.listed.round (step_allowed hstep) now with
      ⟨m'', hstep', hdepth, hloop, hmem, hlog, -, hnone⟩ |
        ⟨p, hs', m'', heq, -, hstep', hdepth, -, hlog, hlisted⟩
    · obtain rfl := Option.some.inj (hstep.symm.trans hstep')
      exact .inl ⟨hdepth, hloop, hmem, hlog, hnone⟩
    · obtain rfl := Option.some.inj (hstep.symm.trans hstep')
      exact .inr ⟨p, hs', heq, hdepth, ⟨hlisted, h₁.lawful⟩, hlog⟩
  · obtain ⟨hs', -, hcalls⟩ := h.run hrun'
    have hle := hcalls now hstands
    omega

/-- Two objects, of which the first is called and arms the second. -/
theorem callouts_correct_two :
    ∃ m hs, run [.timeout 1 0 5 0 ⟨10, 0⟩, .calltimeout, .round ⟨15, 0⟩,
        .timeout 2 0 1 1 ⟨15, 0⟩, .ret, .round ⟨15, 0⟩]
      (start (N := 2)
        { head := none
          next := fun _ => none
          cTime := fun _ => ⟨0, 0⟩
          cArg := fun _ => 0
          cFunc := fun _ => 0 }) = some m ∧ Correct m hs := by
  obtain ⟨m, hrun⟩ : ∃ m, run [.timeout 1 0 5 0 ⟨10, 0⟩, .calltimeout, .round ⟨15, 0⟩,
      .timeout 2 0 1 1 ⟨15, 0⟩, .ret, .round ⟨15, 0⟩]
    (start (N := 2)
      { head := none
        next := fun _ => none
        cTime := fun _ => ⟨0, 0⟩
        cArg := fun _ => 0
        cFunc := fun _ => 0 }) = some m := ⟨_, rfl⟩
  obtain ⟨hs, h, -⟩ := callouts_correct _ _ m hrun
  exact ⟨m, hs, hrun, h⟩

end Callouts
