import Mathlib.Data.List.Nodup
import Mathlib.Logic.Function.Basic

/-!
# Lists of linked objects, walked from slot to slot

Objects that carry a pointer to the next one, and a variable that points to the first. The places
where a pointer lies are the variable and the members of the objects. A walk goes from place to
place until it finds null or an object that it looks for; an object is linked in or out at the
place where the walk has ended.
-/

namespace LinkedSlots

variable {α : Type}

/-- The variable and the pointer of every object. -/
structure Cells (α : Type) where
  head : Option α
  next : α → Option α

/-- Where a pointer lies. -/
inductive Slot (α : Type) where
  | head
  | next (a : α)

def Cells.load (s : Cells α) : Slot α → Option α
  | .head => s.head
  | .next a => s.next a

def Cells.store [DecidableEq α] (s : Cells α) (slot : Slot α) (p : Option α) : Cells α :=
  match slot with
  | .head => { s with head := p }
  | .next a => { s with next := Function.update s.next a p }

/-- So many steps at most from slot to slot, up to null or an object with `stop`. -/
def walk (s : Cells α) (stop : α → Bool) : Nat → Slot α → Option (Slot α)
  | 0, _ => none
  | n + 1, slot =>
    match s.load slot with
    | none => some slot
    | some p => if stop p then some slot else walk s stop n (.next p)

/-- The pointers lead from a slot along the objects of a list and end with null. -/
def Chain (s : Cells α) : Slot α → List α → Prop
  | slot, [] => s.load slot = none
  | slot, a :: as => s.load slot = some a ∧ Chain s (.next a) as

/-- The slot behind the objects that lie behind another. -/
def slotAfter (slot : Slot α) (as : List α) : Slot α := as.foldl (fun _ a => .next a) slot

variable {s s' : Cells α} {slot : Slot α} {a : α} {as bs front back : List α} {stop : α → Bool}

theorem Chain.load_eq (h : Chain s slot as) : s.load slot = as.head? := by
  cases as with
  | nil => exact h
  | cons a as => exact h.1

/-- A chain depends on the slots that it passes. -/
theorem Chain.congr (h : Chain s slot as) (hslot : s'.load slot = s.load slot)
    (hsame : ∀ a ∈ as, s'.next a = s.next a) : Chain s' slot as := by
  induction as generalizing slot with
  | nil => exact hslot.trans h
  | cons a as ih =>
    obtain ⟨hload, hrest⟩ := h
    obtain ⟨ha, has⟩ := List.forall_mem_cons.mp hsame
    exact ⟨hslot.trans hload, ih hrest ha has⟩

theorem Chain.unique (has : Chain s slot as) (hbs : Chain s slot bs) : as = bs := by
  induction as generalizing slot bs with
  | nil =>
    cases bs with
    | nil => rfl
    | cons b bs => exact absurd (Eq.trans (Eq.symm has) hbs.1) nofun
  | cons a as ih =>
    cases bs with
    | nil => exact absurd (has.1.symm.trans hbs) nofun
    | cons b bs =>
      obtain rfl : a = b := Option.some.inj (has.1.symm.trans hbs.1)
      rw [ih has.2 hbs.2]

/-- A walk over a chain ends in front of the first object with `stop`, or at its end. -/
theorem walk_chain (h : Chain s slot as) {n : Nat} (hn : as.length < n) :
    ∃ front back, as = front ++ back ∧ (∀ a ∈ front, stop a = false) ∧
      (∀ a ∈ back.head?, stop a = true) ∧
        walk s stop n slot = some (slotAfter slot front) ∧
          s.load (slotAfter slot front) = back.head? := by
  induction as generalizing slot n with
  | nil =>
    obtain ⟨n, rfl⟩ := Nat.exists_eq_add_one_of_ne_zero (Nat.ne_of_gt hn)
    refine ⟨[], [], rfl, nofun, nofun, ?_, h⟩
    rw [walk, show s.load slot = none from h]
    rfl
  | cons a as ih =>
    obtain ⟨n, rfl⟩ := Nat.exists_eq_add_one_of_ne_zero (Nat.ne_of_gt (Nat.zero_lt_of_lt hn))
    obtain ⟨hload, hrest⟩ := h
    rw [walk, hload]
    by_cases hstop : stop a = true
    · refine ⟨[], a :: as, rfl, nofun, ?_, if_pos hstop, hload⟩
      rintro b ⟨⟩
      exact hstop
    · obtain ⟨front, back, rfl, hfront, hback, hwalk, hend⟩ :=
        ih hrest (Nat.lt_of_succ_lt_succ hn)
      refine ⟨a :: front, back, rfl, ?_, hback, (if_neg hstop).trans hwalk, hend⟩
      exact List.forall_mem_cons.mpr ⟨Bool.eq_false_iff.mpr hstop, hfront⟩

/-- A slot that holds no pointer of these objects. -/
def Apart (slot : Slot α) (as : List α) : Prop := ∀ a ∈ as, slot ≠ .next a

/-- Behind other objects there is another slot. -/
theorem slotAfter_ne {b : α} (hslot : Apart slot (b :: as)) : slotAfter (.next b) as ≠ slot := by
  rcases List.eq_nil_or_concat as with rfl | ⟨init, c, rfl⟩
  · exact fun heq => hslot b List.mem_cons_self heq.symm
  · intro heq
    rw [slotAfter, List.concat_eq_append, List.foldl_append] at heq
    exact hslot c (by simp) heq.symm

variable [DecidableEq α]

theorem store_load (s : Cells α) (slot : Slot α) (p : Option α) :
    (s.store slot p).load slot = p := by
  cases slot with
  | head => rfl
  | next a => exact Function.update_self ..

theorem store_next_of_ne {p : Option α} {b : α} (hb : slot ≠ .next b) :
    (s.store slot p).next b = s.next b := by
  cases slot with
  | head => rfl
  | next a => exact Function.update_of_ne (fun heq => hb (congrArg Slot.next heq.symm)) _ _

theorem store_load_of_ne {p : Option α} {other : Slot α} (hne : other ≠ slot) :
    (s.store other p).load slot = s.load slot := by
  cases slot with
  | next b => exact store_next_of_ne hne
  | head =>
    cases other with
    | head => exact absurd rfl hne
    | next a => rfl

/-- The objects of a chain may be stored where the chain begins. -/
theorem Chain.store_slot (h : Chain s (.next a) as) (hslot : Apart slot (a :: as)) :
    Chain (s.store slot (some a)) slot (a :: as) := by
  obtain ⟨ha, has⟩ := List.forall_mem_cons.mp hslot
  refine ⟨store_load s slot _, h.congr (store_next_of_ne ha) fun b hb => ?_⟩
  exact store_next_of_ne (has b hb)

/-- An object is linked in behind the first ones. -/
theorem Chain.link (h : Chain s slot (front ++ back)) (hnodup : (front ++ back).Nodup)
    (ha : a ∉ front ++ back) (hslot : Apart slot (front ++ back)) (hslota : slot ≠ .next a) :
    Chain ((s.store (.next a) back.head?).store (slotAfter slot front) (some a)) slot
      (front ++ a :: back) := by
  have hstored {b : α} (hb : b ≠ a) : (s.store (.next a) back.head?).next b = s.next b :=
    store_next_of_ne fun heq => hb (Slot.next.inj heq).symm
  induction front generalizing slot with
  | nil =>
    refine Chain.store_slot ?_ (List.forall_mem_cons.mpr ⟨hslota, hslot⟩)
    have hfirst : (s.store (.next a) back.head?).load (.next a) = back.head? := store_load ..
    cases back with
    | nil => exact hfirst
    | cons b back =>
      refine ⟨hfirst, h.2.congr ?_ fun c hc => ?_⟩
      · exact hstored fun heq => ha (heq ▸ List.mem_cons_self)
      · exact hstored fun heq => ha (heq ▸ List.mem_cons_of_mem b hc)
  | cons b front ih =>
    obtain ⟨hload, hrest⟩ := h
    obtain ⟨hb, hnodup⟩ := List.nodup_cons.mp hnodup
    obtain ⟨hab, ha⟩ := not_or.mp (List.mem_cons.not.mp ha)
    obtain ⟨hslotb, hslot⟩ := List.forall_mem_cons.mp hslot
    have hapart : Apart (.next b) (front ++ back) := by
      intro c hc heq
      exact hb (Slot.next.inj heq ▸ hc)
    have hnext : (Slot.next b : Slot α) ≠ .next a := fun heq => hab (Slot.next.inj heq).symm
    refine ⟨?_, ih hrest hnodup ha hapart hnext⟩
    -- the slot in front is none of those stored to
    have hlast : slotAfter (.next b) front ≠ slot :=
      slotAfter_ne (List.forall_mem_cons.mpr ⟨hslotb, fun c hc => hslot c (by simp [hc])⟩)
    exact (store_load_of_ne hlast).trans ((store_load_of_ne hslota.symm).trans hload)

/-- An object is linked out. -/
theorem Chain.unlink (h : Chain s slot (front ++ a :: back)) (hnodup : (front ++ a :: back).Nodup)
    (hslot : Apart slot (front ++ a :: back)) :
    Chain (s.store (slotAfter slot front) (s.next a)) slot (front ++ back) := by
  induction front generalizing slot with
  | nil =>
    obtain ⟨ha, -⟩ := List.nodup_cons.mp hnodup
    obtain ⟨-, hslot⟩ := List.forall_mem_cons.mp hslot
    have hload := h.2.load_eq
    cases back with
    | nil =>
      refine (store_load ..).trans hload
    | cons b back =>
      have hnext : s.next a = some b := hload
      rw [hnext]
      exact Chain.store_slot h.2.2 hslot
  | cons b front ih =>
    obtain ⟨hload, hrest⟩ := h
    obtain ⟨hb, hnodup⟩ := List.nodup_cons.mp hnodup
    obtain ⟨hslotb, hslot⟩ := List.forall_mem_cons.mp hslot
    have hapart : Apart (.next b) (front ++ a :: back) := by
      intro c hc heq
      exact hb (Slot.next.inj heq ▸ hc)
    refine ⟨?_, ih hrest hnodup hapart⟩
    have hlast : slotAfter (.next b) front ≠ slot :=
      slotAfter_ne (List.forall_mem_cons.mpr ⟨hslotb, fun c hc => hslot c (by simp [hc])⟩)
    exact (store_load_of_ne hlast).trans hload

end LinkedSlots
