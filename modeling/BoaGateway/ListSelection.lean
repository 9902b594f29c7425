import Mathlib.Data.List.Basic
import Mathlib.Data.List.Count

/-!
# Selecting entries of a list

The first entry with the smallest key, as a scan finds it that replaces its
candidate only by a smaller one, the lists in which exactly one entry is filtered
out, and the last entry of every key.
-/

namespace ListSelection

universe u
variable {α : Type u} {key : α → Nat} {l : List α} {a b : α} {i j : Nat}

/-- Entry `a` at position `i` is the first one with the smallest key. -/
def FirstMin (key : α → Nat) (l : List α) (i : Nat) (a : α) : Prop :=
  l[i]? = some a ∧ ∀ j b, l[j]? = some b → key a ≤ key b ∧ (j < i → key a < key b)

theorem FirstMin.singleton (a : α) : FirstMin key [a] 0 a := by
  refine ⟨rfl, fun j b hb => ?_⟩
  obtain ⟨rfl, rfl⟩ : j = 0 ∧ a = b := by
    cases j with
    | zero => exact ⟨rfl, Option.some.inj hb⟩
    | succ j => cases hb
  exact ⟨Nat.le_refl _, fun h => absurd h (by decide)⟩

theorem getElem?_concat_cases (h : (l ++ [b])[j]? = some a) :
    l[j]? = some a ∨ (j = l.length ∧ a = b) := by
  rcases Nat.lt_or_ge j l.length with hj | hj
  · rw [List.getElem?_append_left hj] at h
    exact Or.inl h
  · rw [List.getElem?_append_right hj, List.getElem?_singleton] at h
    split at h
    · exact Or.inr ⟨by omega, (Option.some.inj h).symm⟩
    · cases h

/-- A smaller entry at the end is the new candidate. -/
theorem FirstMin.concat_lt (h : FirstMin key l i a) (hb : key b < key a) :
    FirstMin key (l ++ [b]) l.length b := by
  refine ⟨by simp, fun j c hc => ?_⟩
  rcases getElem?_concat_cases hc with hl | ⟨rfl, rfl⟩
  · have := (h.2 j c hl).1
    exact ⟨by omega, fun _ => by omega⟩
  · exact ⟨Nat.le_refl _, fun hj => absurd hj (Nat.lt_irrefl _)⟩

/-- Any other entry at the end leaves the candidate. -/
theorem FirstMin.concat_ge (h : FirstMin key l i a) (hb : key a ≤ key b) :
    FirstMin key (l ++ [b]) i a := by
  obtain ⟨hi, -⟩ := List.getElem?_eq_some_iff.mp h.1
  refine ⟨by rw [List.getElem?_append_left hi]; exact h.1, fun j c hc => ?_⟩
  rcases getElem?_concat_cases hc with hl | ⟨rfl, rfl⟩
  · exact h.2 j c hl
  · exact ⟨hb, fun hj => by omega⟩

theorem FirstMin.unique (h : FirstMin key l i a) (h' : FirstMin key l j b) : i = j ∧ a = b := by
  have hij : i = j := by
    rcases Nat.lt_trichotomy i j with hlt | heq | hgt
    · have h₁ := (h'.2 i a h.1).2 hlt
      have h₂ := (h.2 j b h'.1).1
      omega
    · exact heq
    · have h₁ := (h.2 j b h'.1).2 hgt
      have h₂ := (h'.2 i a h.1).1
      omega
  subst hij
  exact ⟨rfl, Option.some.inj (h.1.symm.trans h'.1)⟩

/-- Filtering out the only entry with a property erases it. -/
theorem filter_eq_eraseIdx {p : α → Bool} (ha : l[i]? = some a) (hp : p a = true)
    (hcount : l.countP p = 1) : (l.filter fun x => !p x) = l.eraseIdx i := by
  induction l generalizing i with
  | nil => cases ha
  | cons x xs ih =>
    cases i with
    | zero =>
      obtain rfl : x = a := Option.some.inj ha
      rw [List.countP_cons_of_pos hp] at hcount
      have hxs : xs.countP p = 0 := by omega
      have hkeep : ∀ y ∈ xs, (!p y) = true := by
        intro y hy
        simpa using List.countP_eq_zero.mp hxs y hy
      rw [List.filter_cons_of_neg (by simp [hp]), List.filter_eq_self.mpr hkeep]
      rfl
    | succ i =>
      have hxs : 0 < xs.countP p :=
        List.countP_pos_iff.mpr ⟨a, List.mem_of_getElem? ha, hp⟩
      have hx : p x = false := by
        cases hpx : p x with
        | false => rfl
        | true =>
          rw [List.countP_cons_of_pos hpx] at hcount
          omega
      rw [List.countP_cons_of_neg (by simp [hx])] at hcount
      rw [List.filter_cons_of_pos (by simp [hx]), ih ha hcount]
      rfl

/-- Where filtering erases one entry, there is only one with the property. -/
theorem countP_eq_one {p : α → Bool} (hi : i < l.length)
    (h : (l.filter fun x => !p x) = l.eraseIdx i) : l.countP p = 1 := by
  have hlen : (l.filter fun x => !p x).length = l.length - 1 := by
    rw [h, List.length_eraseIdx_of_lt hi]
  have hsplit := List.length_eq_countP_add_countP p (l := l)
  have hneg : l.countP (fun x => !p x) = (l.filter fun x => !p x).length :=
    List.countP_eq_length_filter
  have hnot : l.countP (fun x => decide ¬p x = true) = l.countP (fun x => !p x) :=
    List.countP_congr fun x _ => by simp
  omega

section lastOfKey

variable {κ : Type u} [DecidableEq κ] {of : α → κ} {p : κ → Bool}

/-- The entries whose key `p` admits and that no later entry shares its key with. -/
def lastOfKey (of : α → κ) (p : κ → Bool) : List α → List α
  | [] => []
  | a :: l => if p (of a) ∧ of a ∉ l.map of then a :: lastOfKey of p l else lastOfKey of p l

theorem lastOfKey_sublist (l : List α) : (lastOfKey of p l).Sublist l := by
  induction l with
  | nil => exact List.Sublist.refl _
  | cons a l ih =>
    rw [lastOfKey]
    split
    · exact ih.cons_cons a
    · exact ih.cons a

theorem mem_keys_lastOfKey {k : κ} :
    k ∈ (lastOfKey of p l).map of ↔ p k = true ∧ k ∈ l.map of := by
  induction l with
  | nil => simp [lastOfKey]
  | cons a l ih =>
    rw [lastOfKey, List.map_cons, List.mem_cons]
    split
    · rename_i ha
      rw [List.map_cons, List.mem_cons, ih]
      constructor
      · rintro (rfl | ⟨hp, hk⟩)
        · exact ⟨ha.1, Or.inl rfl⟩
        · exact ⟨hp, Or.inr hk⟩
      · rintro ⟨hp, hk⟩
        exact hk.imp id fun hk => ⟨hp, hk⟩
    · rename_i ha
      rw [ih]
      constructor
      · rintro ⟨hp, hk⟩
        exact ⟨hp, Or.inr hk⟩
      · rintro ⟨hp, rfl | hk⟩
        · exact ⟨hp, by_contra fun hl => ha ⟨hp, hl⟩⟩
        · exact ⟨hp, hk⟩

theorem nodup_keys_lastOfKey (l : List α) : ((lastOfKey of p l).map of).Nodup := by
  induction l with
  | nil => exact List.nodup_nil
  | cons a l ih =>
    rw [lastOfKey]
    split
    · rename_i ha
      refine List.nodup_cons.mpr ⟨?_, ih⟩
      exact fun hmem => ha.2 (mem_keys_lastOfKey.mp hmem).2
    · exact ih

/-- Where every key is admitted and none comes twice, every entry is the last of its key. -/
theorem lastOfKey_eq_self (hp : ∀ k ∈ l.map of, p k = true) (hl : (l.map of).Nodup) :
    lastOfKey of p l = l := by
  induction l with
  | nil => rfl
  | cons a l ih =>
    obtain ⟨ha, hl⟩ := List.nodup_cons.mp hl
    rw [lastOfKey, if_pos ⟨hp _ (by simp), ha⟩, ih (fun k hk => hp k (by simp_all)) hl]

end lastOfKey

end ListSelection
