import Mathlib.Data.List.Basic

/-!
# Machines that are fed

A machine takes one symbol at a time and may come to an end, which leaves the rest of its
input unread. What it makes of an input does not depend on where the input is cut.
-/

namespace Feeding

universe u v w
variable {S T : Type u} {E : Type v} {A : Type w}

inductive Step (S : Type u) (E : Type v) where
  | more (s : S)
  | ended (e : E)

inductive Fed (S : Type u) (E : Type v) (A : Type w) where
  | more (s : S)
  | ended (e : E) (unread : List A)

def feed (step : S → A → Step S E) : S → List A → Fed S E A
  | s, [] => .more s
  | s, a :: as =>
    match step s a with
    | .more s' => feed step s' as
    | .ended e => .ended e as

theorem feed_cons_more {step : S → A → Step S E} {s s' : S} {a : A} (h : step s a = .more s')
    (as : List A) : feed step s (a :: as) = feed step s' as := by
  rw [feed, h]

theorem feed_cons_ended {step : S → A → Step S E} {s : S} {a : A} {e : E}
    (h : step s a = .ended e) (as : List A) : feed step s (a :: as) = .ended e as := by
  rw [feed, h]

theorem feed_append_more {step : S → A → Step S E} {s s' : S} {as : List A}
    (h : feed step s as = .more s') (bs : List A) :
    feed step s (as ++ bs) = feed step s' bs := by
  induction as generalizing s with
  | nil =>
    cases h
    rfl
  | cons a as ih =>
    cases hstep : step s a with
    | more t =>
      rw [feed_cons_more hstep] at h
      rw [List.cons_append, feed_cons_more hstep, ih h]
    | ended e =>
      rw [feed_cons_ended hstep] at h
      cases h

theorem feed_append_ended {step : S → A → Step S E} {s : S} {as unread : List A} {e : E}
    (h : feed step s as = .ended e unread) (bs : List A) :
    feed step s (as ++ bs) = .ended e (unread ++ bs) := by
  induction as generalizing s with
  | nil => cases h
  | cons a as ih =>
    cases hstep : step s a with
    | more t =>
      rw [feed_cons_more hstep] at h
      rw [List.cons_append, feed_cons_more hstep, ih h]
    | ended e' =>
      rw [feed_cons_ended hstep] at h
      cases h
      rw [List.cons_append, feed_cons_ended hstep]

/-- Two machines whose steps agree, as long as a relation holds that may look at the rest of
the input. -/
theorem feed_agrees {step : S → A → Step S E} {step' : T → A → Step T E}
    {R : S → T → List A → Prop}
    (hstep : ∀ s t a as, R s t (a :: as) →
      (∃ e, step s a = .ended e ∧ step' t a = .ended e) ∨
        ∃ s' t', step s a = .more s' ∧ step' t a = .more t' ∧ R s' t' as)
    {s : S} {t : T} {as : List A} (h : R s t as) :
    (∃ e unread, feed step s as = .ended e unread ∧ feed step' t as = .ended e unread) ∨
      ∃ s' t', feed step s as = .more s' ∧ feed step' t as = .more t' ∧ R s' t' [] := by
  induction as generalizing s t with
  | nil => exact Or.inr ⟨s, t, rfl, rfl, h⟩
  | cons a as ih =>
    rcases hstep s t a as h with ⟨e, hs, ht⟩ | ⟨s', t', hs, ht, hR⟩
    · exact Or.inl ⟨e, as, feed_cons_ended hs as, feed_cons_ended ht as⟩
    · rw [feed_cons_more hs, feed_cons_more ht]
      exact ih hR

end Feeding
