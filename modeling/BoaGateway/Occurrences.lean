import Mathlib.Data.List.Infix

/-!
# Occurrences of a list in a list

A search cuts a list at the first place where another one stands. Where it is repeated behind
that place, the lists that it leaves are the leftovers.
-/

namespace Occurrences

universe u
variable {α : Type u} [DecidableEq α]

/-- What stands in front of the first occurrence of `t`, and behind it. -/
def cutFirst (t : List α) : List α → Option (List α × List α)
  | [] => if t = [] then some ([], []) else none
  | a :: s =>
    if t <+: a :: s then some ([], (a :: s).drop t.length)
    else (cutFirst t s).map fun q => (a :: q.1, q.2)

theorem cutFirst_cons_of_starts {t s : List α} {a : α} (h : t <+: a :: s) :
    cutFirst t (a :: s) = some ([], (a :: s).drop t.length) := if_pos h

theorem cutFirst_cons_of_not {t s : List α} {a : α} (h : ¬ t <+: a :: s) :
    cutFirst t (a :: s) = (cutFirst t s).map fun q => (a :: q.1, q.2) := if_neg h

theorem cutFirst_nil {t : List α} (h : t ≠ []) : cutFirst t [] = none := if_neg h

theorem cutFirst_eq_some {t s p r : List α} (h : cutFirst t s = some (p, r)) :
    s = p ++ (t ++ r) := by
  induction s generalizing p with
  | nil =>
    rw [cutFirst] at h
    split at h
    · rename_i ht
      cases h
      rw [ht]
      rfl
    · cases h
  | cons a s ih =>
    by_cases hpre : t <+: a :: s
    · rw [cutFirst_cons_of_starts hpre] at h
      cases h
      exact (List.prefix_iff_eq_append.mp hpre).symm
    · rw [cutFirst_cons_of_not hpre, Option.map_eq_some_iff] at h
      obtain ⟨⟨q, r'⟩, hq, heq⟩ := h
      cases heq
      rw [ih hq]
      rfl

theorem cutFirst_length {t s p r : List α} (h : cutFirst t s = some (p, r)) :
    p.length + t.length + r.length = s.length := by
  rw [cutFirst_eq_some h]
  simp only [List.length_append]
  omega

theorem cutFirst_behind {t s p r : List α} (ht : t ≠ []) (h : cutFirst t s = some (p, r)) :
    r ⊆ s ∧ r.length < s.length := by
  have hlen := cutFirst_length h
  have hpos := List.length_pos_iff.mpr ht
  constructor
  · rw [cutFirst_eq_some h]
    exact List.Subset.trans (List.subset_append_right t r) (List.subset_append_right p (t ++ r))
  · omega

theorem cutFirst_isSome_iff {t s : List α} : (cutFirst t s).isSome ↔ t <:+: s := by
  induction s with
  | nil =>
    rw [cutFirst, List.infix_nil]
    by_cases ht : t = [] <;> simp [ht]
  | cons a s ih =>
    rw [List.infix_cons_iff, ← ih]
    by_cases hpre : t <+: a :: s
    · simp [cutFirst_cons_of_starts hpre, hpre]
    · simp [cutFirst_cons_of_not hpre, hpre]

theorem cutFirst_eq_none_iff {t s : List α} : cutFirst t s = none ↔ ¬ t <:+: s := by
  rw [← cutFirst_isSome_iff, Bool.not_eq_true, Option.isSome_eq_false_iff, Option.isNone_iff_eq_none]

theorem cutFirst_self_append (t r : List α) : cutFirst t (t ++ r) = some ([], r) := by
  cases hs : t ++ r with
  | nil =>
    obtain ⟨rfl, rfl⟩ := List.append_eq_nil_iff.mp hs
    rfl
  | cons a s =>
    have hpre : t <+: a :: s := hs ▸ List.prefix_append t r
    rw [cutFirst_cons_of_starts hpre, ← hs, List.drop_left]

/-- What is found first stays the first when the list goes on. -/
theorem cutFirst_append {t s p r : List α} (h : cutFirst t s = some (p, r)) (w : List α) :
    cutFirst t (s ++ w) = some (p, r ++ w) := by
  induction s generalizing p with
  | nil =>
    rw [cutFirst] at h
    split at h
    · rename_i ht
      cases h
      rw [ht]
      exact cutFirst_self_append [] w
    · cases h
  | cons a s ih =>
    by_cases hpre : t <+: a :: s
    · rw [cutFirst_cons_of_starts hpre] at h
      cases h
      have hpre' : t <+: a :: (s ++ w) := hpre.trans (List.prefix_append (a :: s) w)
      rw [List.cons_append, cutFirst_cons_of_starts hpre', ← List.cons_append,
        List.drop_append_of_le_length hpre.length_le]
    · rw [cutFirst_cons_of_not hpre, Option.map_eq_some_iff] at h
      obtain ⟨⟨q, r'⟩, hq, heq⟩ := h
      cases heq
      have hpre' : ¬ t <+: a :: (s ++ w) := by
        intro hpre'
        have hlen := cutFirst_length hq
        apply hpre
        apply List.prefix_of_prefix_length_le hpre' (List.prefix_append (a :: s) w)
        rw [List.length_cons]
        omega
      rw [List.cons_append, cutFirst_cons_of_not hpre', ih hq]
      rfl

/-- No occurrence starts where its first element is missing. -/
theorem cutFirst_skip {b : α} {t u : List α} (hb : b ∉ u) (s : List α) :
    cutFirst (b :: t) (u ++ s) = (cutFirst (b :: t) s).map fun q => (u ++ q.1, q.2) := by
  induction u with
  | nil => simp
  | cons a u ih =>
    have hne : b ≠ a := fun h => hb (h ▸ List.mem_cons_self)
    have hpre : ¬ b :: t <+: a :: (u ++ s) := fun h => hne (List.cons_prefix_cons.mp h).1
    rw [List.cons_append, cutFirst_cons_of_not hpre,
      ih fun h => hb (List.mem_cons_of_mem a h), Option.map_map]
    rfl

omit [DecidableEq α] in
theorem prefix_append_cons_iff {t : List α} {c : α} (hc : c ∉ t) (u s : List α) :
    t <+: u ++ c :: s ↔ t <+: u := by
  constructor
  · intro h
    have hu : u ++ [c] <+: u ++ c :: s := ⟨s, by simp⟩
    rcases List.prefix_or_prefix_of_prefix h hu with h | h
    · rcases List.prefix_concat_iff.mp h with rfl | h
      · exact absurd (List.mem_append_right u List.mem_cons_self) hc
      · exact h
    · exact absurd (h.subset (List.mem_append_right u List.mem_cons_self)) hc
  · intro h
    exact h.trans (List.prefix_append u (c :: s))

omit [DecidableEq α] in
/-- A list without the element between two others occurs in one of them. -/
theorem infix_append_cons_iff {t : List α} {c : α} (hc : c ∉ t) (u s : List α) :
    t <:+: u ++ c :: s ↔ t <:+: u ∨ t <:+: s := by
  induction u with
  | nil =>
    have hpre := prefix_append_cons_iff hc [] s
    rw [List.nil_append, List.prefix_nil] at hpre
    rw [List.nil_append, List.infix_cons_iff, hpre, List.infix_nil]
  | cons a u ih =>
    have hpre := prefix_append_cons_iff hc (a :: u) s
    rw [List.cons_append] at hpre
    rw [List.cons_append, List.infix_cons_iff, List.infix_cons_iff, hpre, ih, or_assoc]

/-- An element that the searched list lacks separates what stands in front of it. -/
theorem cutFirst_barrier {t : List α} {c : α} (ht : t ≠ []) (hc : c ∉ t) (u s : List α) :
    cutFirst t (u ++ c :: s) =
      match cutFirst t u with
      | some (p, r) => some (p, r ++ c :: s)
      | none => (cutFirst t s).map fun q => (u ++ c :: q.1, q.2) := by
  induction u with
  | nil =>
    have hpre : ¬ t <+: c :: s := by
      rw [← List.nil_append (c :: s), prefix_append_cons_iff hc, List.prefix_nil]
      exact ht
    rw [List.nil_append, cutFirst_cons_of_not hpre, cutFirst_nil ht]
    rfl
  | cons a u ih =>
    have hiff := prefix_append_cons_iff hc (a :: u) s
    rw [List.cons_append] at hiff ⊢
    by_cases hpre : t <+: a :: u
    · rw [cutFirst_cons_of_starts hpre, cutFirst_cons_of_starts (hiff.mpr hpre),
        ← List.cons_append, List.drop_append_of_le_length hpre.length_le]
    · rw [cutFirst_cons_of_not hpre, cutFirst_cons_of_not (mt hiff.mp hpre), ih]
      cases cutFirst t u with
      | none =>
        rw [Option.map_map]
        rfl
      | some q => rfl

theorem cutFirst_of_occurs {t : List α} {c : α} (ht : t ≠ []) (hc : c ∉ t) {u p r : List α}
    (h : cutFirst t u = some (p, r)) (s : List α) :
    cutFirst t (u ++ c :: s) = some (p, r ++ c :: s) := by
  rw [cutFirst_barrier ht hc, h]

theorem cutFirst_of_not_occurs {t : List α} {c : α} (ht : t ≠ []) (hc : c ∉ t) {u : List α}
    (h : cutFirst t u = none) (s : List α) :
    cutFirst t (u ++ c :: s) = (cutFirst t s).map fun q => (u ++ c :: q.1, q.2) := by
  rw [cutFirst_barrier ht hc, h]

theorem cutFirst_singleton {c : α} {u : List α} (hc : c ∉ u) (s : List α) :
    cutFirst [c] (u ++ c :: s) = some (u, s) := by
  have hself : cutFirst [c] (c :: s) = some ([], s) := cutFirst_self_append [c] s
  rw [cutFirst_skip hc, hself, Option.map_some, List.append_nil]

theorem cutFirst_singleton_none {c : α} {u : List α} (hc : c ∉ u) : cutFirst [c] u = none := by
  rw [cutFirst_eq_none_iff, List.singleton_infix_iff]
  exact hc

theorem takeWhile_of_cutFirst {c : α} {s u r : List α} (h : cutFirst [c] s = some (u, r)) :
    s.takeWhile (fun x => x != c) = u := by
  have hmem : c ∈ s := by
    rw [← List.singleton_infix_iff, ← cutFirst_isSome_iff, h]
    rfl
  obtain ⟨v, w, rfl, hv⟩ := List.eq_append_cons_of_mem hmem
  cases (cutFirst_singleton hv w).symm.trans h
  rw [List.takeWhile_append_of_pos fun x hx => by
    rw [bne_iff_ne]
    exact fun hxc => hv (hxc ▸ hx)]
  simp

theorem cutFirst_pair {a b : α} (hab : a ≠ b) {u : List α} (hu : ¬ [a, b] <:+: u) (s : List α) :
    cutFirst [a, b] (u ++ a :: b :: s) = some (u, s) := by
  induction u with
  | nil => exact cutFirst_self_append [a, b] s
  | cons c u ih =>
    have hrest : ¬ [a, b] <:+: u := fun h => hu (h.trans (List.suffix_cons c u).isInfix)
    have hpre : ¬ [a, b] <+: c :: (u ++ a :: b :: s) := by
      intro h
      obtain ⟨hc, h⟩ := List.cons_prefix_cons.mp h
      cases u with
      | nil => exact hab (List.cons_prefix_cons.mp h).1.symm
      | cons d u =>
        have hd := (List.cons_prefix_cons.mp h).1
        apply hu
        rw [hc, hd]
        exact ⟨[], u, rfl⟩
    rw [List.cons_append, cutFirst_cons_of_not hpre, ih hrest]
    rfl

/-- What each occurrence leaves, when the search goes on behind it. -/
def leftovers (t s : List α) : List (List α) :=
  match h : cutFirst t s with
  | none => []
  | some (_, r) => if ht : t = [] then [] else r :: leftovers t r
termination_by s.length
decreasing_by
  have hlen := cutFirst_length h
  have hpos := List.length_pos_iff.mpr ht
  omega

theorem leftovers_of_some {t s p r : List α} (ht : t ≠ []) (h : cutFirst t s = some (p, r)) :
    leftovers t s = r :: leftovers t r := by
  rw [leftovers]
  split
  · rename_i hnone
    rw [hnone] at h
    cases h
  · rename_i p' r' hsome
    rw [hsome] at h
    cases h
    rw [dif_neg ht]

theorem leftovers_of_none {t s : List α} (h : cutFirst t s = none) : leftovers t s = [] := by
  rw [leftovers]
  split
  · rfl
  · rename_i hsome
    rw [hsome] at h
    cases h

end Occurrences
