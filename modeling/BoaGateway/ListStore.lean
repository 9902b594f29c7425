import Mathlib.Data.List.Basic
import Mathlib.Logic.Function.Basic

/-!
# A store of lists

Every key owns a list of records. An operation that names an unknown key, or a
position that its list does not have, is refused and changes nothing; clearing
is never refused, and the length of the list of an unknown key is that of the
empty list the store keeps for it.
-/

namespace ListStore

universe u v

inductive Op (K : Type u) (V : Type v) where
  | add (k : K) (x : V)
  | delete (k : K) (n : Nat)
  | clear (k : K)
  | update (k : K) (n : Nat) (x : V)
  | swap (k : K) (a : Nat) (k' : K) (b : Nat)
  | total (k : K)
  | get (k : K) (n : Nat)

inductive Answer (V : Type v) where
  | done
  | refused
  | total (n : Int)
  | record (x : V)
  deriving DecidableEq

variable {K : Type u} {V : Type v}

def Op.keys : Op K V → List K
  | .add k _ | .delete k _ | .clear k | .update k _ _ | .total k | .get k _ => [k]
  | .swap k _ k' _ => [k, k']

/-- Record `n` of a known key. -/
def record (known : K → Bool) (s : K → List V) (k : K) (n : Nat) : Option V :=
  if known k then (s k)[n]? else none

variable {known : K → Bool} {s : K → List V}

theorem record_eq_none_iff {k : K} {n : Nat} :
    record known s k n = none ↔ known k = false ∨ (s k).length ≤ n := by
  by_cases hk : known k = true
  · simp [record, hk]
  · simp [record, hk]

variable [DecidableEq K]

def put (s : K → List V) (k : K) (n : Nat) (x : V) : K → List V :=
  Function.update s k ((s k).set n x)

def step (known : K → Bool) (s : K → List V) : Op K V → (K → List V) × Answer V
  | .add k x =>
    if known k then (Function.update s k (s k ++ [x]), .done) else (s, .refused)
  | .delete k n =>
    match record known s k n with
    | none => (s, .refused)
    | some _ => (Function.update s k ((s k).eraseIdx n), .done)
  | .clear k => (if known k then Function.update s k [] else s, .done)
  | .update k n x =>
    match record known s k n with
    | none => (s, .refused)
    | some _ => (put s k n x, .done)
  | .swap k a k' b =>
    match record known s k a, record known s k' b with
    | some x, some y => (put (put s k a y) k' b x, .done)
    | _, _ => (s, .refused)
  | .total k => (s, .total (s k).length)
  | .get k n =>
    match record known s k n with
    | none => (s, .refused)
    | some x => (s, .record x)

theorem put_other {k k' : K} (h : k' ≠ k) (n : Nat) (x : V) : put s k n x k' = s k' :=
  Function.update_of_ne h _ _

theorem put_length (k k' : K) (n : Nat) (x : V) : (put s k n x k').length = (s k').length := by
  by_cases h : k' = k
  · subst h
    simp [put]
  · rw [put_other h]

/-- The list of a key changes only when an operation names the key. -/
theorem step_other {op : Op K V} {j : K} (hj : j ∉ op.keys) :
    (step known s op).1 j = s j := by
  cases op with
  | add k x =>
    simp only [Op.keys, List.mem_singleton] at hj
    by_cases hk : known k = true
    · simp [step, hk, hj]
    · simp [step, hk]
  | clear k =>
    simp only [Op.keys, List.mem_singleton] at hj
    by_cases hk : known k = true
    · simp [step, hk, hj]
    · simp [step, hk]
  | total k => rfl
  | delete k n =>
    simp only [Op.keys, List.mem_singleton] at hj
    cases hr : record known s k n <;> simp [step, hr, hj]
  | update k n x =>
    simp only [Op.keys, List.mem_singleton] at hj
    cases hr : record known s k n <;> simp [step, hr, put_other hj]
  | get k n => cases hr : record known s k n <;> simp [step, hr]
  | swap k a k' b =>
    simp only [Op.keys, List.mem_cons, List.not_mem_nil, or_false, not_or] at hj
    cases hx : record known s k a with
    | none => simp only [step, hx]
    | some x =>
      cases hy : record known s k' b with
      | none => simp only [step, hx, hy]
      | some y => simp [step, hx, hy, put_other hj.1, put_other hj.2]

end ListStore
