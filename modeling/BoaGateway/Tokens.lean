import BoaGateway.ByteBlocks

/-!
# Tokens

`strtok` with a set of delimiters, which may be another one for every call: the token and what is
left for the next call.
-/

namespace Tokens

open ByteBlocks

def strtok (delims s : Bytes) : Option (Bytes × Bytes) :=
  let s := s.dropWhile (· ∈ delims)
  if s = [] then none else some (s.takeWhile (· ∉ delims), (s.dropWhile (· ∉ delims)).tail)

variable {delims lead w : Bytes}

/-- A test of every byte of a text. -/
theorem forall_of_all {p : UInt8 → Prop} [DecidablePred p] {l : Bytes}
    (h : (l.all fun c => decide (p c)) = true) : ∀ c ∈ l, p c :=
  fun c hc => of_decide_eq_true (List.all_eq_true.mp h c hc)

theorem dropWhile_lead (hlead : ∀ c ∈ lead, c ∈ delims) (s : Bytes) :
    (lead ++ s).dropWhile (· ∈ delims) = s.dropWhile (· ∈ delims) :=
  List.dropWhile_append_of_pos fun c hc => decide_eq_true (hlead c hc)

/-- A token ends at the next delimiter. -/
theorem strtok_word (hlead : ∀ c ∈ lead, c ∈ delims) (hne : w ≠ []) (hw : ∀ c ∈ w, c ∉ delims)
    {d : UInt8} (hd : d ∈ delims) (rest : Bytes) :
    strtok delims (lead ++ (w ++ d :: rest)) = some (w, rest) := by
  obtain ⟨c, w', rfl⟩ := List.exists_cons_of_ne_nil hne
  have hstart : (lead ++ (c :: w' ++ d :: rest)).dropWhile (· ∈ delims) = c :: w' ++ d :: rest := by
    rw [dropWhile_lead hlead]
    exact List.dropWhile_cons_of_neg (by simpa using hw c List.mem_cons_self)
  have hkeep : ∀ b ∈ c :: w', decide (b ∉ delims) = true := fun b hb => decide_eq_true (hw b hb)
  rw [strtok, hstart, if_neg (by simp), List.takeWhile_append_of_pos hkeep,
    List.dropWhile_append_of_pos hkeep, List.takeWhile_cons_of_neg (by simpa using hd),
    List.dropWhile_cons_of_neg (by simpa using hd), List.append_nil, List.tail_cons]

theorem strtok_front (hne : w ≠ []) (hw : ∀ c ∈ w, c ∉ delims) {d : UInt8} (hd : d ∈ delims)
    (rest : Bytes) : strtok delims (w ++ d :: rest) = some (w, rest) := by
  have hlead : ∀ c ∈ ([] : Bytes), c ∈ delims := nofun
  exact strtok_word hlead hne hw hd rest

/-- The last token goes to the end. -/
theorem strtok_last (hlead : ∀ c ∈ lead, c ∈ delims) (hne : w ≠ []) (hw : ∀ c ∈ w, c ∉ delims) :
    strtok delims (lead ++ w) = some (w, []) := by
  obtain ⟨c, w', rfl⟩ := List.exists_cons_of_ne_nil hne
  have hstart : (lead ++ c :: w').dropWhile (· ∈ delims) = c :: w' := by
    rw [dropWhile_lead hlead]
    exact List.dropWhile_cons_of_neg (by simpa using hw c List.mem_cons_self)
  have hkeep : ∀ b ∈ c :: w', decide (b ∉ delims) = true := fun b hb => decide_eq_true (hw b hb)
  rw [strtok, hstart, if_neg (List.cons_ne_nil c w'), List.takeWhile_eq_self_iff.mpr hkeep,
    List.dropWhile_eq_nil_iff.mpr hkeep, List.tail_nil]

theorem strtok_none (hlead : ∀ c ∈ lead, c ∈ delims) : strtok delims lead = none := by
  have h := dropWhile_lead hlead []
  rw [List.append_nil] at h
  rw [strtok, h]
  rfl

theorem strtok_shorter {s rest : Bytes} (h : strtok delims s = some (w, rest)) :
    w ≠ [] ∧ rest.length < s.length := by
  rw [strtok] at h
  split at h
  · cases h
  · rename_i hne
    obtain ⟨rfl, rfl⟩ := Prod.mk.inj (Option.some.inj h)
    have hhead := List.head_dropWhile_not (fun c => decide (c ∈ delims)) hne
    obtain ⟨c, t, ht⟩ := List.exists_cons_of_ne_nil hne
    have hlen := (List.dropWhile_suffix (l := s) fun c => decide (c ∈ delims)).length_le
    simp only [ht, List.head_cons, decide_eq_false_iff_not] at hhead
    rw [ht] at hlen ⊢
    have hdrop := (List.dropWhile_suffix (l := t) fun c => decide (c ∉ delims)).length_le
    rw [List.takeWhile_cons_of_pos (by simpa using hhead),
      List.dropWhile_cons_of_pos (by simpa using hhead), List.length_tail]
    rw [List.length_cons] at hlen
    exact ⟨List.cons_ne_nil _ _, by omega⟩

/-- All tokens of a text. -/
def tokens (delims s : Bytes) : List Bytes :=
  match h : strtok delims s with
  | none => []
  | some (token, rest) =>
    have := (strtok_shorter h).2
    token :: tokens delims rest
termination_by s.length

theorem tokens_none {s : Bytes} (h : strtok delims s = none) : tokens delims s = [] := by
  rw [tokens]
  split
  · rfl
  · rename_i heq
    rw [h] at heq
    cases heq

theorem tokens_cons {s rest : Bytes} (h : strtok delims s = some (w, rest)) :
    tokens delims s = w :: tokens delims rest := by
  rw [tokens]
  split
  · rename_i heq
    rw [h] at heq
    cases heq
  · rename_i heq
    rw [h] at heq
    cases heq
    rfl

/-- No token is empty. -/
theorem tokens_ne_nil (s : Bytes) : ∀ t ∈ tokens delims s, t ≠ [] := by
  induction hn : s.length using Nat.strong_induction_on generalizing s with
  | _ n ih =>
    intro t ht
    cases hs : strtok delims s with
    | none =>
      rw [tokens_none hs] at ht
      cases ht
    | some res =>
      obtain ⟨token, rest⟩ := res
      obtain ⟨hne, hshorter⟩ := strtok_shorter hs
      rw [tokens_cons hs] at ht
      rcases List.mem_cons.mp ht with rfl | ht
      · exact hne
      · exact ih rest.length (hn ▸ hshorter) rest rfl t ht

theorem strtok_free {s rest : Bytes} (h : strtok delims s = some (w, rest)) :
    ∀ c ∈ w, c ∉ delims := by
  rw [strtok] at h
  split at h
  · cases h
  · obtain ⟨rfl, rfl⟩ := Prod.mk.inj (Option.some.inj h)
    intro c hc
    simpa using List.mem_takeWhile_imp hc

/-- No token has a delimiter. -/
theorem tokens_free (s : Bytes) : ∀ t ∈ tokens delims s, ∀ c ∈ t, c ∉ delims := by
  fun_induction tokens delims s with
  | case1 s h => exact nofun
  | case2 s token rest h _ ih => exact List.forall_mem_cons.mpr ⟨strtok_free h, ih⟩

/-- Words that are joined by one delimiter are the tokens. -/
theorem tokens_intercalate {d : UInt8} (hd : d ∈ delims) {ws : List Bytes}
    (hws : ∀ w ∈ ws, w ≠ [] ∧ ∀ c ∈ w, c ∉ delims) : tokens delims ([d].intercalate ws) = ws := by
  have hlead : ∀ c ∈ ([] : Bytes), c ∈ delims := nofun
  induction ws with
  | nil => exact tokens_none (strtok_none hlead)
  | cons w ws ih =>
    obtain ⟨hne, hw⟩ := hws w List.mem_cons_self
    cases ws with
    | nil =>
      have hlast := strtok_last hlead hne hw
      rw [List.nil_append] at hlast
      rw [List.intercalate_singleton, tokens_cons hlast, tokens_none (strtok_none hlead)]
    | cons v ws =>
      have hfront := strtok_front hne hw hd ([d].intercalate (v :: ws))
      rw [List.intercalate_cons_cons, List.append_assoc, List.singleton_append, tokens_cons hfront,
        ih fun t ht => hws t (List.mem_cons_of_mem w ht)]

/-- What begins inside of a word has the rest of the word and the words behind it. -/
theorem suffix_intercalate {d : UInt8} {ws : List Bytes} {rest : Bytes} (hne : rest ≠ [])
    (hd : rest.head? ≠ some d) (h : rest <:+ [d].intercalate ws) :
    ∃ front w ws' s, ws = front ++ w :: ws' ∧ s <:+ w ∧ s ≠ [] ∧
      rest = [d].intercalate (s :: ws') := by
  induction ws with
  | nil => exact absurd (List.suffix_nil.mp h) hne
  | cons w ws ih =>
    cases ws with
    | nil =>
      rw [List.intercalate_singleton] at h
      exact ⟨[], w, [], rest, rfl, h, hne, (List.intercalate_singleton ..).symm⟩
    | cons v ws =>
      rw [List.intercalate_cons_cons, List.append_assoc, List.singleton_append] at h
      have hbehind : d :: [d].intercalate (v :: ws) <:+ w ++ d :: [d].intercalate (v :: ws) :=
        List.suffix_append _ _
      rcases List.suffix_or_suffix_of_suffix h hbehind with hrest | hrest
      · rcases List.suffix_cons_iff.mp hrest with rfl | hrest
        · exact absurd rfl hd
        · obtain ⟨front, w', ws', s, heq, hs⟩ := ih hrest
          exact ⟨w :: front, w', ws', s, by rw [heq, List.cons_append], hs⟩
      · obtain ⟨s, rfl⟩ := hrest
        have hs : s <:+ w := by
          obtain ⟨a, ha⟩ := h
          rw [← List.append_assoc] at ha
          exact ⟨a, List.append_cancel_right ha⟩
        have hsne : s ≠ [] := by
          rintro rfl
          exact hd rfl
        refine ⟨[], w, v :: ws, s, rfl, hs, hsne, ?_⟩
        rw [List.intercalate_cons_cons, List.append_assoc, List.singleton_append]

end Tokens
