import Mathlib.Data.List.Basic

/-!
# Chains of rules

A packet is taken along the rules of a chain. The first rule that applies decides about it, sends
it back to where the chain was called from, or sends it into another chain, which may send it back
as well.
-/

namespace FilterChains

variable {π ν ε : Type}

inductive Target (π ν : Type) where
  | verdict (v : ν)
  | ret
  | call (chain : π → Option ν)

structure Rule (π ν : Type) where
  applies : π → Bool
  target : Target π ν

/-- What becomes of a packet; it has no verdict when it goes back. -/
def walk (p : π) : List (Rule π ν) → Option ν
  | [] => none
  | r :: rules =>
    if r.applies p then
      match r.target with
      | .verdict v => some v
      | .ret => none
      | .call chain => (chain p).or (walk p rules)
    else walk p rules

variable {p : π} {r : Rule π ν} {rules : List (Rule π ν)}

theorem walk_skip (h : r.applies p = false) : walk p (r :: rules) = walk p rules := by
  rw [walk, h]
  rfl

theorem walk_verdict {v : ν} (h : r.applies p = true) (ht : r.target = .verdict v) :
    walk p (r :: rules) = some v := by
  rw [walk, if_pos h, ht]

theorem walk_ret (h : r.applies p = true) (ht : r.target = .ret) : walk p (r :: rules) = none := by
  rw [walk, if_pos h, ht]

theorem walk_call {chain : π → Option ν} (h : r.applies p = true) (ht : r.target = .call chain) :
    walk p (r :: rules) = (chain p).or (walk p rules) := by
  rw [walk, if_pos h, ht]

/-- A rule that decides or sends back, by whether it applies. -/
theorem walk_cons {o : Option ν} (ht : r.target = o.elim .ret .verdict) :
    walk p (r :: rules) = if r.applies p then o else walk p rules := by
  cases h : r.applies p with
  | false => exact walk_skip h
  | true =>
    cases o with
    | none => exact walk_ret h ht
    | some v => exact walk_verdict h ht

/-- The rules of a table: the first entry that applies decides. -/
theorem walk_table (table : List ε) (applies : ε → π → Bool) (outcome : ε → Option ν)
    (rules : List (Rule π ν)) :
    walk p (table.map (fun e => ⟨applies e, (outcome e).elim .ret .verdict⟩) ++ rules) =
      (table.find? fun e => applies e p).elim (walk p rules) outcome := by
  induction table with
  | nil => rfl
  | cons e table ih =>
    rw [List.map_cons, List.cons_append, walk_cons rfl, ih, List.find?_cons]
    cases h : applies e p with
    | false => simp [h]
    | true => simp [h]

end FilterChains
