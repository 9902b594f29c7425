import Mathlib.Data.List.Nodup
import Mathlib.Logic.Function.Basic

/-!
# Doubly linked lists

Objects with a pointer to the next and one to the previous object, in lists that are given by
their heads. An object is put in front of a list or taken out of one; lists that have neither the
object nor one beside it stay as they are.
-/

namespace DoublyLinked

variable {α : Type}

structure Cells (α : Type) where
  next : α → Option α
  prev : α → Option α

/-- The objects of a list from `p` on, behind the object `before`. -/
def Linked (c : Cells α) : Option α → Option α → List α → Prop
  | _, p, [] => p = none
  | before, p, a :: as => p = some a ∧ c.prev a = before ∧ Linked c (some a) (c.next a) as

variable {c c' : Cells α} {before p : Option α} {a : α} {as bs front back : List α}

theorem Linked.head (h : Linked c before p as) : p = as.head? := by
  cases as with
  | nil => exact h
  | cons a as => exact h.1

theorem Linked.unique (has : Linked c before p as) (hbs : Linked c before p bs) : as = bs := by
  induction as generalizing before p bs with
  | nil =>
    have hp := has.symm.trans hbs.head
    exact (List.head?_eq_none_iff.mp hp.symm).symm
  | cons a as ih =>
    cases bs with
    | nil => exact absurd (has.1.symm.trans hbs) nofun
    | cons b bs =>
      obtain rfl : a = b := Option.some.inj (has.1.symm.trans hbs.1)
      rw [ih has.2.2 hbs.2.2]

theorem Linked.congr (h : Linked c before p as)
    (hsame : ∀ a ∈ as, c'.next a = c.next a ∧ c'.prev a = c.prev a) : Linked c' before p as := by
  induction as generalizing before p with
  | nil => exact h
  | cons a as ih =>
    obtain ⟨hp, hprev, hrest⟩ := h
    obtain ⟨⟨hnext, hprev'⟩, hsame⟩ := List.forall_mem_cons.mp hsame
    exact ⟨hp, hprev'.trans hprev, hnext ▸ ih hrest hsame⟩

/-- The pointers of an object of a list. -/
theorem Linked.beside (h : Linked c before p (front ++ a :: back)) :
    c.prev a = (front.getLast?).or before ∧ c.next a = back.head? := by
  induction front generalizing before p with
  | nil => exact ⟨h.2.1, h.2.2.head⟩
  | cons b front ih =>
    obtain ⟨hprev, hnext⟩ := ih h.2.2
    refine ⟨?_, hnext⟩
    rw [hprev]
    cases front with
    | nil => rfl
    | cons d front => simp [List.getLast?_cons]

variable [DecidableEq α]

def Cells.setNext (c : Cells α) (p q : Option α) : Cells α :=
  match p with
  | none => c
  | some p => { c with next := Function.update c.next p q }

def Cells.setPrev (c : Cells α) (p q : Option α) : Cells α :=
  match p with
  | none => c
  | some p => { c with prev := Function.update c.prev p q }

/-- An object is taken out from between the objects beside it. -/
def Cells.unlink (c : Cells α) (a : α) : Cells α :=
  let c' := (c.setNext (c.prev a) (c.next a)).setPrev (c.next a) (c.prev a)
  { next := Function.update c'.next a none, prev := Function.update c'.prev a none }

/-- An object is put in front of the list with a head. -/
def Cells.push (c : Cells α) (head : Option α) (a : α) : Cells α :=
  let c' := c.setPrev head (some a)
  { next := Function.update c'.next a head, prev := Function.update c'.prev a none }

theorem setNext_next (q : Option α) (x : α) :
    (c.setNext p q).next x = if p = some x then q else c.next x := by
  cases p with
  | none => simp [Cells.setNext]
  | some p => simp [Cells.setNext, Function.update_apply, eq_comm]

@[simp] theorem setNext_prev (p q : Option α) : (c.setNext p q).prev = c.prev := by
  cases p with
  | none => rfl
  | some p => rfl

@[simp] theorem setPrev_next (p q : Option α) : (c.setPrev p q).next = c.next := by
  cases p with
  | none => rfl
  | some p => rfl

theorem setPrev_prev (q : Option α) (x : α) :
    (c.setPrev p q).prev x = if p = some x then q else c.prev x := by
  cases p with
  | none => simp [Cells.setPrev]
  | some p => simp [Cells.setPrev, Function.update_apply, eq_comm]

theorem unlink_next {x : α} (hx : x ≠ a) :
    (c.unlink a).next x = if c.prev a = some x then c.next a else c.next x := by
  simp [Cells.unlink, Function.update_of_ne hx, setNext_next]

theorem unlink_prev {x : α} (hx : x ≠ a) :
    (c.unlink a).prev x = if c.next a = some x then c.prev a else c.prev x := by
  simp [Cells.unlink, Function.update_of_ne hx, setPrev_prev]

theorem push_next {x : α} (hx : x ≠ a) : (c.push p a).next x = c.next x := by
  simp [Cells.push, Function.update_of_ne hx]

theorem push_prev {x : α} (hx : x ≠ a) :
    (c.push p a).prev x = if p = some x then some a else c.prev x := by
  simp [Cells.push, Function.update_of_ne hx, setPrev_prev]

theorem push_self : (c.push p a).next a = p ∧ (c.push p a).prev a = none := by
  simp [Cells.push]

theorem Linked.push (h : Linked c none p as) (hnodup : (a :: as).Nodup) :
    Linked (c.push p a) none (some a) (a :: as) := by
  obtain ⟨hnext, hprev⟩ : (c.push p a).next a = p ∧ (c.push p a).prev a = none := push_self
  refine ⟨rfl, hprev, ?_⟩
  rw [hnext]
  cases as with
  | nil => exact h
  | cons b as =>
    obtain ⟨rfl, -, hrest⟩ := h
    obtain ⟨ha, hnodup⟩ := List.nodup_cons.mp hnodup
    have hba : b ≠ a := fun heq => ha (heq ▸ List.mem_cons_self)
    refine ⟨rfl, ?_, ?_⟩
    · rw [push_prev hba, if_pos rfl]
    · rw [push_next hba]
      refine hrest.congr fun x hx => ?_
      have hxa : x ≠ a := fun heq => ha (heq ▸ List.mem_cons_of_mem b hx)
      have hbx : some b ≠ some x := by
        rintro ⟨⟩
        exact (List.nodup_cons.mp hnodup).1 hx
      rw [push_next hxa, push_prev hxa, if_neg hbx]
      exact ⟨rfl, rfl⟩

/-- Other lists do not change. -/
theorem Linked.push_other (h : Linked c before p as) {head : Option α} (ha : a ∉ as)
    (hhead : ∀ b ∈ head, b ∉ as) : Linked (c.push head a) before p as := by
  refine h.congr fun x hx => ?_
  have hxa : x ≠ a := fun heq => ha (heq ▸ hx)
  have hx' : head ≠ some x := fun heq => hhead x heq hx
  rw [push_next hxa, push_prev hxa, if_neg hx']
  exact ⟨rfl, rfl⟩

theorem Linked.unlink_other (h : Linked c before p as) (ha : a ∉ as)
    (hprev : ∀ b ∈ c.prev a, b ∉ as) (hnext : ∀ b ∈ c.next a, b ∉ as) :
    Linked (c.unlink a) before p as := by
  refine h.congr fun x hx => ?_
  have hxa : x ≠ a := fun heq => ha (heq ▸ hx)
  have hx₁ : c.prev a ≠ some x := fun heq => hprev x heq hx
  have hx₂ : c.next a ≠ some x := fun heq => hnext x heq hx
  rw [unlink_next hxa, unlink_prev hxa, if_neg hx₁, if_neg hx₂]
  exact ⟨rfl, rfl⟩

/-- The list without the object; when that was the head, the next one is. -/
theorem Linked.unlink (h : Linked c before p (front ++ a :: back))
    (hnodup : (front ++ a :: back).Nodup) (hbefore : ∀ b ∈ before, b ∉ front ++ a :: back) :
    Linked (c.unlink a) before (if p = some a then c.next a else p) (front ++ back) := by
  induction front generalizing before p with
  | nil =>
    obtain ⟨rfl, hprev, hrest⟩ := h
    obtain ⟨ha, hnodup⟩ := List.nodup_cons.mp hnodup
    rw [if_pos rfl, List.nil_append]
    cases back with
    | nil => exact hrest
    | cons b back =>
      obtain ⟨hnext, -, hback⟩ := hrest
      have hba : b ≠ a := fun heq => ha (heq ▸ List.mem_cons_self)
      have hbb : c.prev a ≠ some b := by
        rw [hprev]
        exact fun heq => hbefore b heq (by simp)
      refine ⟨hnext, ?_, ?_⟩
      · rw [unlink_prev hba, if_pos hnext, hprev]
      · rw [unlink_next hba, if_neg hbb]
        refine hback.unlink_other (fun hmem => ha (List.mem_cons_of_mem b hmem)) ?_ ?_
        · rw [hprev]
          exact fun d hd hmem => hbefore d hd (by simp [hmem])
        · rw [hnext]
          rintro d ⟨⟩
          exact (List.nodup_cons.mp hnodup).1
  | cons f front ih =>
    obtain ⟨rfl, hprev, hrest⟩ := h
    obtain ⟨hf, hnodup⟩ := List.nodup_cons.mp hnodup
    have hfa : f ≠ a := fun heq => hf (heq ▸ by simp)
    obtain ⟨hprevA, hnextA⟩ := hrest.beside
    have hnextF : c.next a ≠ some f := by
      rw [hnextA]
      intro heq
      exact hf (by simp [List.mem_of_head? heq])
    have hbehind := ih hrest hnodup (by rintro b ⟨⟩; exact hf)
    have hnext : (c.unlink a).next f = if c.next f = some a then c.next a else c.next f := by
      have hheadF := hrest.head
      rw [unlink_next hfa]
      cases front with
      | nil =>
        have hprevF : c.prev a = some f := hprevA
        have hnextA' : c.next f = some a := hheadF
        rw [if_pos hprevF, if_pos hnextA']
      | cons g front =>
        have hga : g ≠ a := by
          rintro rfl
          exact (List.nodup_cons.mp hnodup).1 (by simp)
        have hprevF : c.prev a ≠ some f := by
          intro heq
          have hlast : (g :: front).getLast? = some f := by
            simpa [List.getLast?_cons] using hprevA.symm.trans heq
          exact hf (List.mem_append_left _ (List.mem_of_getLast? hlast))
        have hnextA' : c.next f ≠ some a := by
          rw [hheadF]
          simpa using hga
        rw [if_neg hprevF, if_neg hnextA']
    rw [if_neg (by simpa using hfa)]
    refine ⟨rfl, ?_, ?_⟩
    · rw [unlink_prev hfa, if_neg hnextF, hprev]
    · rwa [hnext]

variable {κ : Type} [DecidableEq κ]

/-- Each head has its list, and no object is in two of them. -/
structure Lists (c : Cells α) (head : κ → Option α) (lists : κ → List α) : Prop where
  linked : ∀ q, Linked c none (head q) (lists q)
  nodup : ∀ q, (lists q).Nodup
  apart : ∀ q q' a, a ∈ lists q → a ∈ lists q' → q = q'

variable {head : κ → Option α} {lists : κ → List α} {q q' : κ}

omit [DecidableEq α] [DecidableEq κ] in
theorem Lists.unique {lists' : κ → List α} (h : Lists c head lists) (h' : Lists c head lists') :
    lists = lists' := funext fun q => (h.linked q).unique (h'.linked q)

/-- An object that is taken out is in no list. -/
theorem Lists.unlink (h : Lists c head lists) (hq : lists q = front ++ a :: back) :
    Lists (c.unlink a) (Function.update head q (if head q = some a then c.next a else head q))
      (Function.update lists q (front ++ back)) ∧
      ∀ q', a ∉ Function.update lists q (front ++ back) q' := by
  have hlinked := h.linked q
  have hnodup := h.nodup q
  have hapart (q' : κ) (hne : q' ≠ q) : ∀ b ∈ front ++ a :: back, b ∉ lists q' := by
    intro b hb hb'
    exact hne (h.apart q' q b hb' (hq ▸ hb))
  rw [hq] at hlinked hnodup
  obtain ⟨hprev, hnext⟩ := hlinked.beside
  have hprevMem : ∀ b ∈ c.prev a, b ∈ front ++ a :: back := by
    intro b hb
    rw [hprev, Option.or_none] at hb
    exact List.mem_append_left _ (List.mem_of_getLast? hb)
  have hnextMem : ∀ b ∈ c.next a, b ∈ front ++ a :: back := by
    intro b hb
    rw [hnext] at hb
    exact List.mem_append_right _ (List.mem_cons_of_mem a (List.mem_of_head? hb))
  have hsub : (front ++ back).Sublist (front ++ a :: back) := by simp
  have hnot : a ∉ front ++ back := by
    obtain ⟨-, hback, hdisj⟩ := List.nodup_append.mp hnodup
    intro ha
    rcases List.mem_append.mp ha with ha | ha
    · exact hdisj a ha a List.mem_cons_self rfl
    · exact (List.nodup_cons.mp hback).1 ha
  have hlists (q' : κ) : (Function.update lists q (front ++ back) q').Sublist (lists q') := by
    by_cases hne : q' = q
    · subst hne
      rwa [Function.update_self, hq]
    · rw [Function.update_of_ne hne]
  refine ⟨⟨?_, fun q' => (h.nodup q').sublist (hlists q'), ?_⟩, ?_⟩
  · intro q'
    by_cases hne : q' = q
    · subst hne
      rw [Function.update_self, Function.update_self]
      exact hlinked.unlink hnodup (by simp)
    · rw [Function.update_of_ne hne, Function.update_of_ne hne]
      exact (h.linked q').unlink_other (hapart q' hne a (by simp))
        (fun b hb => hapart q' hne b (hprevMem b hb)) fun b hb => hapart q' hne b (hnextMem b hb)
  · intro q₁ q₂ b hb₁ hb₂
    exact h.apart q₁ q₂ b ((hlists q₁).subset hb₁) ((hlists q₂).subset hb₂)
  · intro q'
    by_cases hne : q' = q
    · subst hne
      rwa [Function.update_self]
    · rw [Function.update_of_ne hne]
      exact hapart q' hne a (by simp)

theorem Lists.push (h : Lists c head lists) (ha : ∀ q', a ∉ lists q') :
    Lists (c.push (head q) a) (Function.update head q (some a))
      (Function.update lists q (a :: lists q)) := by
  have hcases {q' : κ} {b : α} (hb : b ∈ Function.update lists q (a :: lists q) q') :
      b = a ∧ q' = q ∨ b ∈ lists q' := by
    by_cases hne : q' = q
    · subst hne
      rw [Function.update_self] at hb
      rcases List.mem_cons.mp hb with rfl | hb
      · exact Or.inl ⟨rfl, rfl⟩
      · exact Or.inr hb
    · rw [Function.update_of_ne hne] at hb
      exact Or.inr hb
  have hnodup : (a :: lists q).Nodup := List.nodup_cons.mpr ⟨ha q, h.nodup q⟩
  constructor
  · intro q'
    by_cases hne : q' = q
    · subst hne
      rw [Function.update_self, Function.update_self]
      exact (h.linked q').push hnodup
    · rw [Function.update_of_ne hne, Function.update_of_ne hne]
      refine (h.linked q').push_other (ha q') fun b hb hb' => ?_
      rw [(h.linked q).head] at hb
      exact hne (h.apart q' q b hb' (List.mem_of_head? hb))
  · intro q'
    by_cases hne : q' = q
    · subst hne
      rwa [Function.update_self]
    · rw [Function.update_of_ne hne]
      exact h.nodup q'
  · intro q₁ q₂ b hb₁ hb₂
    rcases hcases hb₁ with ⟨hba, hq₁⟩ | hold₁
    · rcases hcases hb₂ with ⟨-, hq₂⟩ | hold₂
      · exact hq₁.trans hq₂.symm
      · exact absurd (hba ▸ hold₂) (ha q₂)
    · rcases hcases hb₂ with ⟨hba, -⟩ | hold₂
      · exact absurd (hba ▸ hold₁) (ha q₁)
      · exact h.apart q₁ q₂ b hold₁ hold₂

end DoublyLinked
