import Mathlib.Data.List.Basic

/-!
# Loops over arguments

A command takes arguments from the front of its list, one item after the other, until none are left
or an item makes it stop. An item that goes wrong makes the whole command fail.
-/

namespace ArgumentLoops

universe u v

/-- What an item does: the state, whether it is an error, and the arguments behind it unless the
loop is left. -/
structure Step (α : Type u) (σ : Type v) where
  state : σ
  error : Bool
  rest : Option (List α)

variable {α : Type u} {σ : Type v}

/-- Loops whose items take at least one argument; an item may have no result. -/
structure Loop (α : Type u) (σ : Type v) where
  item : Nat → List α → σ → Option (Step α σ)
  shorter : ∀ k args s st rest, item k args s = some st → st.rest = some rest →
    rest.length < args.length

namespace Loop

variable (L : Loop α σ)

/-- The loop for at most so many items. -/
def runFor : Nat → Nat → List α → σ → Option (σ × Bool)
  | 0, _, args, s => if args = [] then some (s, false) else none
  | n + 1, k, args, s =>
    if args = [] then some (s, false)
    else
      (L.item k args s).bind fun st =>
        match st.rest with
        | none => some (st.state, st.error)
        | some rest => (runFor n (k + 1) rest st.state).map fun r => (r.1, st.error || r.2)

/-- The state after all items, and whether one was an error. -/
def run (args : List α) (s : σ) : Option (σ × Bool) := L.runFor args.length 0 args s

/-- Every item that is reached, with the state before it. -/
def AllFor (Q : Nat → List α → σ → Prop) : Nat → Nat → List α → σ → Prop
  | 0, _, _, _ => True
  | n + 1, k, args, s =>
    args ≠ [] → Q k args s ∧
      ∀ st rest, L.item k args s = some st → st.rest = some rest →
        AllFor Q n (k + 1) rest st.state

def All (Q : Nat → List α → σ → Prop) (args : List α) (s : σ) : Prop :=
  L.AllFor Q args.length 0 args s

variable {L} {Q Q' : Nat → List α → σ → Prop} {n k : Nat} {args : List α} {s : σ}

theorem allFor_congr (h : ∀ k args s, args ≠ [] → (Q k args s ↔ Q' k args s)) :
    L.AllFor Q n k args s ↔ L.AllFor Q' n k args s := by
  induction n generalizing k args s with
  | zero => exact Iff.rfl
  | succ n ih =>
    constructor
    · intro hall hne
      obtain ⟨hq, hrest⟩ := hall hne
      exact ⟨(h k args s hne).mp hq, fun st rest hst hr => ih.mp (hrest st rest hst hr)⟩
    · intro hall hne
      obtain ⟨hq, hrest⟩ := hall hne
      exact ⟨(h k args s hne).mpr hq, fun st rest hst hr => ih.mpr (hrest st rest hst hr)⟩

/-- Conditions that are the same for every item are the same for the loop. -/
theorem all_congr (h : ∀ k args s, args ≠ [] → (Q k args s ↔ Q' k args s)) :
    L.All Q args s ↔ L.All Q' args s :=
  allFor_congr h

/-- A loop all of whose items have a result ends. Its result is an error exactly if an item's is. -/
theorem runFor_of_all (hn : args.length ≤ n)
    (hall : L.AllFor (fun k args s => (L.item k args s).isSome) n k args s) :
    ∃ s' e, L.runFor n k args s = some (s', e) ∧
      (e = false ↔ L.AllFor (fun k args s => ∀ st, L.item k args s = some st → st.error = false)
        n k args s) := by
  induction n generalizing k args s with
  | zero =>
    have hnil : args = [] := List.length_eq_zero_iff.mp (by omega)
    exact ⟨s, false, if_pos hnil, iff_of_true rfl trivial⟩
  | succ n ih =>
    by_cases hnil : args = []
    · exact ⟨s, false, if_pos hnil, iff_of_true rfl fun h => absurd hnil h⟩
    · obtain ⟨hsome, hrest⟩ := hall hnil
      obtain ⟨st, hst⟩ := Option.isSome_iff_exists.mp hsome
      cases hr : st.rest with
      | none =>
        refine ⟨st.state, st.error, ?_, ?_⟩
        · rw [runFor, if_neg hnil, hst, Option.bind_some, hr]
        · constructor
          · intro he _
            refine ⟨fun st' hst' => ?_, fun st' rest hst' hr' => ?_⟩
            · rw [hst] at hst'
              exact Option.some.inj hst' ▸ he
            · rw [hst] at hst'
              rw [← Option.some.inj hst', hr] at hr'
              cases hr'
          · exact fun h => (h hnil).1 st hst
      | some rest =>
        have hshort := L.shorter k args s st rest hst hr
        obtain ⟨s', e, hrun, he⟩ := ih (by omega) (hrest st rest hst hr)
        refine ⟨s', st.error || e, ?_, ?_⟩
        · rw [runFor, if_neg hnil, hst, Option.bind_some, hr]
          dsimp only
          rw [hrun, Option.map_some]
        · rw [Bool.or_eq_false_iff, he]
          constructor
          · rintro ⟨herror, hbehind⟩ _
            refine ⟨fun st' hst' => ?_, fun st' rest' hst' hr' => ?_⟩
            · rw [hst] at hst'
              exact Option.some.inj hst' ▸ herror
            · rw [hst] at hst'
              cases hst'
              rw [hr] at hr'
              exact Option.some.inj hr' ▸ hbehind
          · intro h
            obtain ⟨herror, hbehind⟩ := h hnil
            exact ⟨herror st hst, hbehind st rest hst hr⟩

theorem run_of_all (hall : L.All (fun k args s => (L.item k args s).isSome) args s) :
    ∃ s' e, L.run args s = some (s', e) ∧ (e = false ↔
      L.All (fun k args s => ∀ st, L.item k args s = some st → st.error = false) args s) :=
  runFor_of_all (Nat.le_refl _) hall

theorem allFor_mono (h : ∀ k args s, Q k args s → Q' k args s) (hall : L.AllFor Q n k args s) :
    L.AllFor Q' n k args s := by
  induction n generalizing k args s with
  | zero => trivial
  | succ n ih =>
    intro hne
    obtain ⟨hq, hrest⟩ := hall hne
    exact ⟨h k args s hq, fun st rest hst hr => ih (hrest st rest hst hr)⟩

theorem all_mono (h : ∀ k args s, Q k args s → Q' k args s) (hall : L.All Q args s) :
    L.All Q' args s :=
  allFor_mono h hall

end Loop

end ArgumentLoops
