import Mathlib.Algebra.BigOperators.Group.List.Basic
import Mathlib.Algebra.Ring.Nat
import Mathlib.Data.Finset.Card
import Mathlib.Data.Finset.Range

/-!
# Tilings

A list of finite sets tiles a finite set when the sets are apart, lie in it and cover it. With
the first two, covering is a matter of counting.
-/

namespace Tilings

/-- So many integers from a start on. -/
def interval (start size : Int) : Finset Int :=
  (Finset.range size.toNat).image fun i : Nat => start + i

theorem mem_interval {start size x : Int} :
    x ∈ interval start size ↔ start ≤ x ∧ x < start + size := by
  rw [interval, Finset.mem_image]
  constructor
  · rintro ⟨i, hi, rfl⟩
    rw [Finset.mem_range] at hi
    omega
  · rintro ⟨hstart, hstop⟩
    exact ⟨(x - start).toNat, Finset.mem_range.mpr (by omega), by omega⟩

theorem interval_card (start size : Int) : (interval start size).card = size.toNat := by
  rw [interval, Finset.card_image_of_injective, Finset.card_range]
  intro i j hij
  change start + (i : Int) = start + (j : Int) at hij
  omega

theorem interval_subset {start size start' size' : Int} (hstart : start' ≤ start)
    (hstop : start + size ≤ start' + size') : interval start size ⊆ interval start' size' := by
  intro x hx
  rw [mem_interval] at hx ⊢
  omega

variable {α : Type} [DecidableEq α]

/-- The union of the sets of a list. -/
def joined (parts : List (Finset α)) : Finset α := parts.foldr (· ∪ ·) ∅

theorem mem_joined {parts : List (Finset α)} {x : α} :
    x ∈ joined parts ↔ ∃ s ∈ parts, x ∈ s := by
  induction parts with
  | nil => simp [joined]
  | cons s parts ih =>
    change x ∈ s ∪ joined parts ↔ _
    rw [Finset.mem_union, ih, List.exists_mem_cons_iff]

theorem card_joined {parts : List (Finset α)} (h : parts.Pairwise Disjoint) :
    (joined parts).card = (parts.map Finset.card).sum := by
  induction parts with
  | nil => rfl
  | cons s parts ih =>
    obtain ⟨hhead, hrest⟩ := List.pairwise_cons.mp h
    have hapart : Disjoint s (joined parts) := by
      rw [Finset.disjoint_left]
      intro x hx hjoined
      obtain ⟨t, ht, hxt⟩ := mem_joined.mp hjoined
      exact Finset.disjoint_left.mp (hhead t ht) hx hxt
    change (s ∪ joined parts).card = _
    rw [Finset.card_union_of_disjoint hapart, ih hrest, List.map_cons, List.sum_cons]

/-- The parts are apart, lie in the whole and cover it. -/
structure Tiles (parts : List (Finset α)) (whole : Finset α) : Prop where
  apart : parts.Pairwise Disjoint
  inside : ∀ s ∈ parts, s ⊆ whole
  cover : whole ⊆ joined parts

theorem joined_subset {parts : List (Finset α)} {whole : Finset α}
    (h : ∀ s ∈ parts, s ⊆ whole) : joined parts ⊆ whole := by
  intro x hx
  obtain ⟨s, hs, hxs⟩ := mem_joined.mp hx
  exact h s hs hxs

/-- Parts that are apart and inside cover exactly when they have as many elements as the
whole. -/
theorem tiles_iff {parts : List (Finset α)} {whole : Finset α} (hapart : parts.Pairwise Disjoint)
    (hinside : ∀ s ∈ parts, s ⊆ whole) :
    Tiles parts whole ↔ (parts.map Finset.card).sum = whole.card := by
  have hsub := joined_subset hinside
  rw [← card_joined hapart]
  constructor
  · intro h
    exact congrArg Finset.card (Finset.Subset.antisymm hsub h.cover)
  · intro h
    refine ⟨hapart, hinside, ?_⟩
    rw [Finset.eq_of_subset_of_card_le hsub h.ge]

end Tilings
