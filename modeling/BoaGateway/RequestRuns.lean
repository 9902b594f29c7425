import Mathlib.Data.List.Forall2
import Mathlib.Logic.Function.Basic

/-!
# Runs of a request server

A server takes one request at a time from a state and gives an answer. A step
without a result is a crash of the server, and a run that contains one has no
result either. The rules below turn facts about one step into facts about every
run: invariants, the answers given on the way, and agreement with an abstract
server.
-/

namespace RequestRuns

universe u v w
variable {S : Type u} {R : Type v} {A : Type w}

def run (step : S → R → Option (S × A)) : S → List R → Option (S × List A)
  | s, [] => some (s, [])
  | s, r :: rs =>
    match step s r with
    | none => none
    | some (s', a) =>
      match run step s' rs with
      | none => none
      | some (s'', as) => some (s'', a :: as)

/-- Every request of a run meets a condition in the state in which it is served. -/
def Along (step : S → R → Option (S × A)) (C : S → R → Prop) : S → List R → Prop
  | _, [] => True
  | s, r :: rs => C s r ∧ ∀ s' a, step s r = some (s', a) → Along step C s' rs

variable {step : S → R → Option (S × A)}

/-- A condition that can be decided in a state can be decided along a run. -/
instance decidableAlong {C : S → R → Prop} [∀ s r, Decidable (C s r)] :
    ∀ s rs, Decidable (Along step C s rs)
  | _, [] => isTrue trivial
  | s, r :: rs =>
    match hstep : step s r with
    | none => decidable_of_iff (C s r)
        ⟨fun h => ⟨h, fun s' a h' => absurd (hstep.symm.trans h') (by simp)⟩, fun h => h.1⟩
    | some (t, b) =>
      have := decidableAlong (C := C) t rs
      decidable_of_iff (C s r ∧ Along step C t rs)
        ⟨fun h => ⟨h.1, fun s' a h' => by
          obtain ⟨rfl, rfl⟩ := Prod.mk.inj (Option.some.inj (hstep.symm.trans h'))
          exact h.2⟩, fun h => ⟨h.1, h.2 t b hstep⟩⟩

theorem run_cons_iff {s s' : S} {r : R} {rs : List R} {as : List A} :
    run step s (r :: rs) = some (s', as) ↔
      ∃ t a bs, step s r = some (t, a) ∧ run step t rs = some (s', bs) ∧ as = a :: bs := by
  constructor
  · intro h
    unfold run at h
    split at h
    · cases h
    · rename_i t a hstep
      split at h
      · cases h
      · rename_i t' bs hrun
        cases h
        exact ⟨t, a, bs, hstep, hrun, rfl⟩
  · rintro ⟨t, a, bs, hstep, hrun, rfl⟩
    simp only [run, hstep, hrun]

/-- The invariant rule: what every conditioned step keeps, every run keeps. -/
theorem run_preserves {Inv : S → Prop} {C : S → R → Prop}
    (hstep : ∀ s r s' a, Inv s → C s r → step s r = some (s', a) → Inv s')
    {s s' : S} {rs : List R} {as : List A} (hinv : Inv s) (hC : Along step C s rs)
    (hrun : run step s rs = some (s', as)) : Inv s' := by
  induction rs generalizing s as with
  | nil => cases hrun; exact hinv
  | cons r rs ih =>
    obtain ⟨t, a, bs, h1, h2, -⟩ := run_cons_iff.mp hrun
    exact ih (hstep s r t a hinv hC.1 h1) (hC.2 t a h1) h2

/-- Under an invariant, a property of every single answer is one of all answers. -/
theorem run_answers {Inv : S → Prop} {C : S → R → Prop} {Q : R → A → Prop}
    (hstep : ∀ s r s' a, Inv s → C s r → step s r = some (s', a) → Inv s' ∧ Q r a)
    {s s' : S} {rs : List R} {as : List A} (hinv : Inv s) (hC : Along step C s rs)
    (hrun : run step s rs = some (s', as)) : List.Forall₂ Q rs as := by
  induction rs generalizing s as with
  | nil => cases hrun; exact .nil
  | cons r rs ih =>
    obtain ⟨t, a, bs, h1, h2, rfl⟩ := run_cons_iff.mp hrun
    obtain ⟨hinv', hq⟩ := hstep s r t a hinv hC.1 h1
    exact .cons hq (ih hinv' (hC.2 t a h1) h2)

/-- Under an invariant, a property of every single answer holds of each one of a run. -/
theorem run_answers_mem {Inv : S → Prop} {C : S → R → Prop} {Q : A → Prop}
    (hstep : ∀ s r s' a, Inv s → C s r → step s r = some (s', a) → Inv s' ∧ Q a)
    {s s' : S} {rs : List R} {as : List A} (hinv : Inv s) (hC : Along step C s rs)
    (hrun : run step s rs = some (s', as)) : ∀ a ∈ as, Q a := by
  have hans : List.Forall₂ (fun _ a => Q a) rs as := run_answers hstep hinv hC hrun
  clear hrun hC
  induction hans with
  | nil => simp
  | cons hq _ ih =>
    rw [List.forall_mem_cons]
    exact ⟨hq, ih⟩

/-- A condition that reads only the requests holds along every run of them. -/
theorem along_of_forall {C : R → Prop} {rs : List R} (h : ∀ r ∈ rs, C r) (s : S) :
    Along step (fun _ r => C r) s rs := by
  induction rs generalizing s with
  | nil => trivial
  | cons r rs ih =>
    exact ⟨h r (by simp), fun s' a _ => ih (fun q hq => h q (by simp [hq])) s'⟩

theorem Along.mono {C D : S → R → Prop} (h : ∀ s r, C s r → D s r) {s : S} {rs : List R}
    (hC : Along step C s rs) : Along step D s rs := by
  induction rs generalizing s with
  | nil => trivial
  | cons r rs ih => exact ⟨h s r hC.1, fun s' a hs => ih (hC.2 s' a hs)⟩

theorem Along.and {C D : S → R → Prop} {s : S} {rs : List R} (hC : Along step C s rs)
    (hD : Along step D s rs) : Along step (fun s r => C s r ∧ D s r) s rs := by
  induction rs generalizing s with
  | nil => trivial
  | cons r rs ih =>
    exact ⟨⟨hC.1, hD.1⟩, fun s' a hs => ih (hC.2 s' a hs) (hD.2 s' a hs)⟩

/-- The refinement rule: related states answer alike and stay related. -/
theorem run_simulates {T : Type*} {spec : T → R → T × A} {Rel : S → T → Prop}
    {C : S → R → Prop}
    (hstep : ∀ s t r, Rel s t → C s r →
      ∃ s', step s r = some (s', (spec t r).2) ∧ Rel s' (spec t r).1)
    {s : S} {t : T} {rs : List R} (hrel : Rel s t) (hC : Along step C s rs) :
    ∃ s' as, run step s rs = some (s', as) ∧
      run (fun t r => some (spec t r)) t rs = some ((rs.foldl (fun t r => (spec t r).1) t), as) ∧
      Rel s' (rs.foldl (fun t r => (spec t r).1) t) := by
  induction rs generalizing s t with
  | nil => exact ⟨s, [], rfl, rfl, hrel⟩
  | cons r rs ih =>
    obtain ⟨s₁, h1, hrel1⟩ := hstep s t r hrel hC.1
    obtain ⟨s', as, h2, h3, hrel'⟩ := ih hrel1 (hC.2 s₁ _ h1)
    refine ⟨s', (spec t r).2 :: as, run_cons_iff.mpr ⟨s₁, _, as, h1, h2, rfl⟩, ?_, hrel'⟩
    exact run_cons_iff.mpr ⟨_, _, as, rfl, h3, rfl⟩

end RequestRuns
