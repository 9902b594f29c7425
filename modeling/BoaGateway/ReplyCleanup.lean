import BoaGateway.MsgQueue

/-!
# What cleaning up the replies drops

When the reply queue is full for too long, `configd` takes all replies out and
sends back those it keeps. It means to drop the replies whose reader is gone, or
else the oldest one. A reply names no thread group, so that every reader is found,
and the oldest reply takes with it all others of its thread.
-/

namespace ReplyCleanup

open ListSelection MibTypes MsgParser MsgQueue

variable {T : Tables}

/-- A message as the server puts it into the reply queue. -/
structure IsReply (m : Queued T) : Prop where
  mtype : 0 < m.msg.mtype
  tgid : m.msg.tgid = 0

def Alive (th : Threads) (m : Queued T) : Prop := (th m.msg.mtype).isSome

instance (th : Threads) (m : Queued T) : Decidable (Alive th m) :=
  inferInstanceAs (Decidable ((th m.msg.mtype).isSome = true))

/-- All messages but one with the smallest time stamp; nothing is left of nothing. -/
def DropsOldest (queue kept : List (Queued T)) : Prop :=
  (queue = [] ∧ kept = []) ∨ ∃ i m, queue[i]? = some m ∧
    (∀ x ∈ queue, m.msg.stamptime ≤ x.msg.stamptime) ∧ kept = queue.eraseIdx i

/-- What a clean up is for. -/
def CleansUp (th : Threads) (queue : List (Queued T)) (res : Option (List (Queued T))) : Prop :=
  ∃ kept, res = some kept ∧
    ((∃ m ∈ queue, ¬ Alive th m) → kept = queue.filter fun m => Alive th m) ∧
    ((∀ m ∈ queue, Alive th m) → DropsOldest queue kept) ∧
    ((∃ m ∈ queue, Alive th m ∧ m ∉ kept) → ∀ m ∈ kept, Alive th m)

/-- The oldest reply. -/
abbrev Oldest (queue : List (Queued T)) (i : Nat) (m : Queued T) : Prop :=
  FirstMin (fun m => m.msg.stamptime) queue i m

/-- The replies that are dropped are the right ones: those to the thread of the oldest
reply are all replies to threads that are gone, or just one when no thread is gone. -/
def DropsRight (th : Threads) (queue : List (Queued T)) : Prop :=
  ∀ i m, Oldest queue i m →
    ((∃ x ∈ queue, ¬ Alive th x) →
      ∀ x ∈ queue, ¬ Alive th x ↔ x.msg.mtype = m.msg.mtype) ∧
    ((∀ x ∈ queue, Alive th x) →
      queue.countP (fun x => x.msg.mtype == m.msg.mtype) = 1)

/-- Every reply is kept, and the oldest so far is noted. -/
structure Collected (seen : List (Queued T)) (c : Cleaning T) (i : Nat) (m : Queued T) :
    Prop where
  kept : c.qbufTmp = seen
  none_dropped : c.isDropQueue = false
  oldest : Oldest seen i m
  stamptime : c.stamptime = m.msg.stamptime
  pid : c.pid = m.msg.mtype
  tgid : c.tgid = m.msg.tgid

theorem collect_first (th : Threads) {m : Queued T} (hm : IsReply m) :
    Collected [m] (collect th .init 0 m) 0 m := by
  have hpid : checkPidExist th m.msg.mtype m.msg.tgid = true :=
    checkPidExist_of_tgid th _ hm.tgid.le
  have hc : collect th .init 0 m = { Cleaning.init.note m with qbufTmp := [m] } := by
    simp [collect, hpid, Cleaning.note, Cleaning.init]
  rw [hc]
  exact ⟨rfl, rfl, .singleton m, rfl, rfl, rfl⟩

theorem collect_next (th : Threads) {seen : List (Queued T)} {c : Cleaning T} {i : Nat}
    {m x : Queued T} (h : Collected seen c i m) (hx : IsReply x) {k : Nat} (hk : k ≠ 0) :
    ∃ i m, Collected (seen ++ [x]) (collect th c k x) i m := by
  have hpid : checkPidExist th x.msg.mtype x.msg.tgid = true :=
    checkPidExist_of_tgid th _ hx.tgid.le
  obtain ⟨hkept, hdrop, hold, hstamp, hp, htgid⟩ := h
  by_cases hlt : x.msg.stamptime < c.stamptime
  · have hc : collect th c k x = { c.note x with qbufTmp := c.qbufTmp ++ [x] } := by
      simp [collect, hk, hlt, hpid, Cleaning.note]
    rw [hc]
    refine ⟨seen.length, x, ?_, hdrop, hold.concat_lt (by omega), rfl, rfl, rfl⟩
    exact congrArg (· ++ [x]) hkept
  · have hc : collect th c k x = { c with qbufTmp := c.qbufTmp ++ [x] } := by
      simp [collect, hk, hlt, hpid]
    rw [hc]
    refine ⟨i, m, ?_, hdrop, hold.concat_ge (by omega), hstamp, hp, htgid⟩
    exact congrArg (· ++ [x]) hkept

theorem collectAll_next (th : Threads) {queue : List (Queued T)} (hq : ∀ x ∈ queue, IsReply x)
    {seen : List (Queued T)} {c : Cleaning T} {i k : Nat} {m : Queued T}
    (h : Collected seen c i m) (hk : k ≠ 0) :
    ∃ i m, Collected (seen ++ queue) (collectAll th c k queue) i m := by
  induction queue generalizing seen c i k m with
  | nil => exact ⟨i, m, by rw [List.append_nil]; exact h⟩
  | cons x xs ih =>
    obtain ⟨j, y, hnext⟩ := collect_next th h (hq x (by simp)) hk
    have hrest := ih (fun z hz => hq z (by simp [hz])) hnext (Nat.succ_ne_zero k)
    rw [List.append_assoc] at hrest
    exact hrest

/-- Marking the replies to a thread and sending back the others. -/
theorem filter_marked {pid tgid : Int} (htgid : tgid = 0) {queue : List (Queued T)}
    (hq : ∀ x ∈ queue, IsReply x) :
    ((queue.map fun x => if x.msg.mtype = pid ∧ x.msg.tgid = tgid then x.drop else x).filter
        fun x => x.msg.mtype != 0) =
      queue.filter fun x => !(x.msg.mtype == pid) := by
  induction queue with
  | nil => rfl
  | cons x xs ih =>
    have hx := hq x (by simp)
    have hrest := ih fun z hz => hq z (by simp [hz])
    by_cases hpid : x.msg.mtype = pid
    · have hmark : x.msg.mtype = pid ∧ x.msg.tgid = tgid := ⟨hpid, hx.tgid.trans htgid.symm⟩
      rw [List.map_cons, if_pos hmark, List.filter_cons_of_neg (by simp [Queued.drop]),
        List.filter_cons_of_neg (by simp [hpid]), hrest]
    · have hne : x.msg.mtype ≠ 0 := hx.mtype.ne'
      rw [List.map_cons, if_neg fun h => hpid h.1, List.filter_cons_of_pos (by simp [hne]),
        List.filter_cons_of_pos (by simp [hpid]), hrest]

/-- The replies to the thread of the oldest one are dropped, whether it exists or not. -/
theorem dropUnexist_eq (th : Threads) {queue : List (Queued T)}
    (hlen : queue.length ≤ maxMsgqMsgnum) (hq : ∀ x ∈ queue, IsReply x) (hne : queue ≠ []) :
    ∃ i m, Oldest queue i m ∧ dropUnexistPidMessage true th queue =
      some (queue.filter fun x => !(x.msg.mtype == m.msg.mtype)) := by
  obtain ⟨x, xs, rfl⟩ := List.exists_cons_of_ne_nil hne
  obtain ⟨i, m, hc⟩ : ∃ i m, Collected (x :: xs) (collectAll th .init 0 (x :: xs)) i m :=
    collectAll_next th (fun z hz => hq z (List.mem_cons_of_mem x hz))
      (collect_first th (hq x (by simp))) (by decide)
  have hm : IsReply m := hq m (List.mem_of_getElem? hc.oldest.1)
  have hroom : ¬ maxMsgqMsgnum < (x :: xs).length := Nat.not_lt_of_le hlen
  have hpid : m.msg.mtype ≠ 0 := hm.mtype.ne'
  refine ⟨i, m, hc.oldest, ?_⟩
  simp only [dropUnexistPidMessage, if_true, hc.kept, hc.none_dropped, hc.pid, hc.tgid]
  rw [if_neg hroom, if_pos ⟨trivial, hpid⟩, filter_marked hm.tgid hq]

/-- What is left of a queue comes from the queue. -/
theorem dropUnexist_sublist {th : Threads} {queue kept : List (Queued T)}
    (hlen : queue.length ≤ maxMsgqMsgnum) (hq : ∀ x ∈ queue, IsReply x)
    (h : dropUnexistPidMessage true th queue = some kept) :
    kept.Sublist queue := by
  by_cases hne : queue = []
  · subst hne
    cases h
    exact List.Sublist.refl _
  · obtain ⟨i, m, -, hkept⟩ := dropUnexist_eq th hlen hq hne
    rw [hkept] at h
    cases h
    exact List.filter_sublist

theorem mem_filter_other {queue : List (Queued T)} {m x : Queued T} :
    x ∈ (queue.filter fun x => !(x.msg.mtype == m.msg.mtype)) ↔
      x ∈ queue ∧ x.msg.mtype ≠ m.msg.mtype := by
  simp

/-- A clean up does what it is for exactly when it drops the right replies. -/
theorem cleansUp_iff (th : Threads) {queue : List (Queued T)}
    (hlen : queue.length ≤ maxMsgqMsgnum) (hq : ∀ x ∈ queue, IsReply x) :
    CleansUp th queue (dropUnexistPidMessage true th queue) ↔ DropsRight th queue := by
  by_cases hne : queue = []
  · subst hne
    constructor
    · rintro - i m ⟨hm, -⟩
      cases hm
    · intro
      exact ⟨[], rfl, fun _ => rfl, fun _ => Or.inl ⟨rfl, rfl⟩, by simp⟩
  obtain ⟨i, m, hold, hkept⟩ := dropUnexist_eq th hlen hq hne
  have hmem : m ∈ queue := List.mem_of_getElem? hold.1
  constructor
  · rintro ⟨kept, he, hgone, hall, -⟩ j m' hold'
    rw [hkept] at he
    cases he
    obtain ⟨-, rfl⟩ := hold.unique hold'
    refine ⟨fun hex x hx => ?_, fun halive => ?_⟩
    · have hsame : x ∈ (queue.filter fun x => !(x.msg.mtype == m.msg.mtype)) ↔
          x ∈ queue.filter fun m => Alive th m := by rw [hgone hex]
      simp only [List.mem_filter, decide_eq_true_eq, hx, true_and] at hsame
      rw [← hsame]
      simp
    · rcases hall halive with ⟨hnil, -⟩ | ⟨k, y, hk, -, herase⟩
      · exact absurd hnil hne
      · obtain ⟨hlt, -⟩ := List.getElem?_eq_some_iff.mp hk
        exact countP_eq_one hlt herase
  · intro hright
    obtain ⟨hgone, hall⟩ := hright i m hold
    have hfirst : (∃ x ∈ queue, ¬ Alive th x) →
        (queue.filter fun x => !(x.msg.mtype == m.msg.mtype)) =
          queue.filter fun m => Alive th m := by
      refine fun hex => List.filter_congr fun x hx => ?_
      have hiff := hgone hex x hx
      by_cases hxm : x.msg.mtype = m.msg.mtype
      · simp [hxm, hiff.mpr hxm]
      · have halive : Alive th x := Classical.not_not.mp fun h => hxm (hiff.mp h)
        simp [hxm, halive]
    refine ⟨_, hkept, hfirst, fun halive => ?_, fun _ x hx => ?_⟩
    · refine Or.inr ⟨i, m, hold.1, fun x hx => ?_, ?_⟩
      · obtain ⟨j, hj⟩ := List.mem_iff_getElem?.mp hx
        exact (hold.2 j x hj).1
      · exact filter_eq_eraseIdx hold.1 (by simp) (hall halive)
    · by_cases hex : ∃ x ∈ queue, ¬ Alive th x
      · rw [hfirst hex] at hx
        exact of_decide_eq_true (List.mem_filter.mp hx).2
      · exact Classical.not_not.mp fun hgone =>
          hex ⟨x, (mem_filter_other.mp hx).1, hgone⟩

def replyTo (tid : Int) (stamptime : Nat) : Queued sampleTables :=
  { call := 0, msg := sendMessage tid msgSucc 0 stamptime (emptyMsg sampleTables) }

theorem replyTo_isReply {tid : Int} (h : 0 < tid) (stamptime : Nat) :
    IsReply (replyTo tid stamptime) := ⟨h, rfl⟩

/-- The reader of the oldest of two replies is gone. -/
theorem cleansUp_two :
    CleansUp (fun tid => if tid = 100 then some 90 else none) [replyTo 100 5, replyTo 101 3]
      (dropUnexistPidMessage true (fun tid => if tid = 100 then some 90 else none)
        [replyTo 100 5, replyTo 101 3]) := by
  have hq : ∀ m ∈ [replyTo 100 5, replyTo 101 3], IsReply m :=
    List.forall_mem_cons.mpr ⟨replyTo_isReply (by decide) 5,
      List.forall_mem_singleton.mpr (replyTo_isReply (by decide) 3)⟩
  refine (cleansUp_iff _ (by decide) hq).mpr fun i m hm => ?_
  have hold : Oldest [replyTo 100 5, replyTo 101 3] 1 (replyTo 101 3) :=
    (FirstMin.singleton (replyTo 100 5)).concat_lt (by decide)
  obtain ⟨-, rfl⟩ := hold.unique hm
  exact ⟨fun _ => by decide, fun halive => absurd (halive (replyTo 101 3) (by simp)) (by decide)⟩

/-- The reader of the other reply is gone: the oldest reply is lost and the other is kept. -/
theorem dropUnexist_keeps_dead :
    ¬ ∀ (th : Threads) (queue : List (Queued sampleTables)), queue.length ≤ maxMsgqMsgnum →
      (∀ m ∈ queue, IsReply m) → CleansUp th queue (dropUnexistPidMessage true th queue) := by
  intro hclaim
  have hq : ∀ m ∈ [replyTo 100 5, replyTo 101 3], IsReply m :=
    List.forall_mem_cons.mpr ⟨replyTo_isReply (by decide) 5,
      List.forall_mem_singleton.mpr (replyTo_isReply (by decide) 3)⟩
  obtain ⟨kept, he, hgone, -, -⟩ :=
    hclaim (fun tid => if tid = 101 then some 90 else none) _ (by decide) hq
  have hkept := hgone ⟨replyTo 100 5, by simp, by decide⟩
  have hmem : replyTo 101 3 ∈ kept := by
    rw [hkept]
    exact List.mem_filter.mpr ⟨by simp, by decide⟩
  have hdrop : (dropUnexistPidMessage true (fun tid => if tid = 101 then some 90 else none)
      [replyTo 100 5, replyTo 101 3]).map (List.map fun m => m.msg.mtype) = some [100] := rfl
  rw [he, Option.map_some, Option.some.injEq] at hdrop
  have hmtype : (101 : Int) ∈ kept.map fun m => m.msg.mtype :=
    List.mem_map.mpr ⟨replyTo 101 3, hmem, rfl⟩
  rw [hdrop] at hmtype
  exact absurd hmtype (by decide)

end ReplyCleanup
