import Mathlib.Data.List.Infix
import BoaGateway.ByteBlocks

/-!
# Texts

C strings without their zero byte, as lists of bytes. A literal stands for its ASCII
codes, and a search returns what lies behind the pointer that the C function returns.
-/

namespace Texts

open ByteBlocks

/-- The bytes of an ASCII literal. -/
def ascii (s : String) : Bytes := s.toList.map fun c => UInt8.ofNat c.toNat

/-- A long literal is evaluated by its pieces. -/
theorem ascii_append (s t : String) : ascii (s ++ t) = ascii s ++ ascii t := by
  rw [ascii, String.toList_append, List.map_append]
  rfl

def slash : UInt8 := 47

/-- What `strstr` points to. -/
def strstr (s t : Bytes) : Option Bytes := s.tails.find? fun r => t.isPrefixOf r

/-- The second text occurs in the first one. -/
def contains (s t : Bytes) : Bool := (strstr s t).isSome

theorem cstr_isPrefix (s : Bytes) : cstr s <+: s := by
  induction s with
  | nil => exact List.prefix_rfl
  | cons x xs ih =>
    rw [cstr]
    split
    · exact List.nil_prefix
    · exact (List.prefix_cons_inj x).mpr ih

/-- A string in front of another one. -/
theorem cstr_append {s : Bytes} (h : (0 : UInt8) ∉ s) (t : Bytes) : cstr (s ++ t) = s ++ cstr t := by
  induction s with
  | nil => rfl
  | cons x xs ih =>
    have hx : x ≠ 0 := fun hx => h (hx ▸ List.mem_cons_self)
    rw [List.cons_append, cstr, if_neg hx, ih fun hxs => h (List.mem_cons_of_mem x hxs),
      List.cons_append]

theorem cstr_eq_self {s : Bytes} (h : (0 : UInt8) ∉ s) : cstr s = s := by
  have hall := cstr_append h []
  rw [List.append_nil] at hall
  rw [hall, cstr, List.append_nil]

theorem cstr_nul_free {s : Bytes} (h : (0 : UInt8) ∉ s) (t : Bytes) :
    cstr (s ++ 0 :: t) = s := by
  rw [cstr_append h, cstr, if_pos rfl, List.append_nil]

end Texts
