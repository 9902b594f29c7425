import Mathlib.Data.List.Basic

/-!
# Deliveries

A sequence is delivered from its beginning on, part by part; what is next is delivered or lost.
What has come through is the sequence without the lost parts, in order.
-/

namespace Delivery

variable {α : Type}

/-- What has been delivered of a sequence, what is still to be, and how often a part was lost. -/
inductive Delivered (whole : List α) : List α → List α → Nat → Prop where
  | start : Delivered whole [] whole 0
  | send {done back : List α} {n : Nat} (part : List α) :
    Delivered whole done (part ++ back) n → Delivered whole (done ++ part) back n
  | lose {done back : List α} {n : Nat} (part : List α) :
    Delivered whole done (part ++ back) n → Delivered whole done back (n + 1)

variable {whole done back : List α} {n : Nat}

theorem Delivered.exact (h : Delivered whole done back n) (hn : n = 0) : done ++ back = whole := by
  induction h with
  | start => rfl
  | send part _ ih =>
    rw [List.append_assoc]
    exact ih hn
  | lose part _ ih => exact absurd hn (Nat.succ_ne_zero _)

/-- With one loss there is one hole. -/
theorem Delivered.hole (h : Delivered whole done back n) (hn : n ≤ 1) :
    ∃ before hole behind, whole = before ++ hole ++ behind ++ back ∧ done = before ++ behind ∧
      (n = 0 → hole = []) := by
  induction h with
  | start => exact ⟨[], [], [], rfl, rfl, fun _ => rfl⟩
  | send part _ ih =>
    obtain ⟨before, hole, behind, hwhole, hdone, hnone⟩ := ih hn
    refine ⟨before, hole, behind ++ part, ?_, ?_, hnone⟩
    · rw [hwhole]
      simp only [List.append_assoc]
    · rw [hdone, List.append_assoc]
  | @lose done back n part hlost ih =>
    have hexact := hlost.exact (Nat.le_zero.mp (Nat.le_of_succ_le_succ hn))
    refine ⟨done, part, [], ?_, (List.append_nil done).symm, fun hzero => absurd hzero nofun⟩
    rw [← hexact]
    simp only [List.append_assoc, List.nil_append]

theorem Delivered.sublist (h : Delivered whole done back n) : (done ++ back).Sublist whole := by
  induction h with
  | start => exact List.Sublist.refl whole
  | send part _ ih =>
    rw [List.append_assoc]
    exact ih
  | lose part _ ih => exact ((List.sublist_append_right part _).append_left _).trans ih

end Delivery
