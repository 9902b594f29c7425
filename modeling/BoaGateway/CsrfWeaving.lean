import BoaGateway.CsrfToken

/-!
# The token woven into a text

What a response with tokens is to be: the text with the hidden input in front of each end of a
form. One pass over fresh bytes gives just this and a line feed. Bytes that a pass comes over
again stay as they are when there is no end of a form among them.
-/

namespace CsrfWeaving

open ByteBlocks Texts TranslateUri CsrfToken

/-- The bytes of a text, each with whether the end of a form begins there. -/
def marks : Bytes → List (Bool × UInt8)
  | [] => []
  | b :: s => (tagAt (b :: s), b) :: marks s

/-- The text in order, with an input that has one of these tokens in front of each end of a form,
and so many line feeds besides. -/
inductive Woven (tokens : List Token) : List (Bool × UInt8) → Bytes → Nat → Prop where
  | nil : Woven tokens [] [] 0
  | byte (b : UInt8) {ms : List (Bool × UInt8)} {out : Bytes} {n : Nat} :
      Woven tokens ms out n → Woven tokens ((false, b) :: ms) (b :: out) n
  | form (b : UInt8) {t : Token} {ms : List (Bool × UInt8)} {out : Bytes} {n : Nat} :
      t ∈ tokens → Woven tokens ms out n →
        Woven tokens ((true, b) :: ms) (csrfBuf t ++ b :: out) n
  | feed {ms : List (Bool × UInt8)} {out : Bytes} {n : Nat} :
      Woven tokens ms out n → Woven tokens ms (10 :: out) (n + 1)

/-- The end of a form stands in the text. -/
def Tagged (s : Bytes) : Prop := ∃ p ∈ s.tails, tagAt p = true

/-- The end of a form begins in the first text and ends in the second one. -/
def Split (s t : Bytes) : Prop :=
  ∃ p ∈ s.tails, p ≠ [] ∧ p.length < tockenSize ∧ tagAt (p ++ t) = true

instance (s : Bytes) : Decidable (Tagged s) :=
  inferInstanceAs (Decidable (∃ p ∈ s.tails, tagAt p = true))

instance (s t : Bytes) : Decidable (Split s t) :=
  inferInstanceAs (Decidable (∃ p ∈ s.tails, p ≠ [] ∧ p.length < tockenSize ∧ tagAt (p ++ t) = true))

variable {b : UInt8} {s t : Bytes} {token : Token}

theorem tagAt_cons :
    tagAt (b :: s) = true ↔ toLower b = 60 ∧ (s.take 6).map toLower = ascii "/form>" := by
  have hform : tockenForm.map toLower = 60 :: ascii "/form>" := by decide
  rw [tagAt, hform, beq_iff_eq, tockenSize, List.take_succ_cons, List.map_cons, List.cons.injEq]

theorem tagAt_length (h : tagAt s = true) : 7 ≤ s.length := by
  cases s with
  | nil => exact absurd h (by decide)
  | cons b s =>
    have hlen := congrArg List.length (tagAt_cons.mp h).2
    have hsix : (ascii "/form>").length = 6 := by decide
    rw [List.length_map, List.length_take, hsix] at hlen
    rw [List.length_cons]
    omega

theorem tagAt_append (h : 7 ≤ s.length) (t : Bytes) : tagAt (s ++ t) = tagAt s := by
  rw [tagAt, tagAt, List.take_append_of_le_length (by exact h)]

/-- The first bytes of a tag are not line feeds. -/
theorem tagAt_no_feed (h : tagAt s = true) : (10 : UInt8) ∉ s.take 7 := by
  intro hfeed
  have hmem := List.mem_map_of_mem (f := toLower) hfeed
  rw [tagAt, beq_iff_eq] at h
  change (s.take 7).map toLower = _ at h
  rw [h] at hmem
  exact absurd hmem (by decide)

/-- Bytes that are no `<` begin no tag. -/
theorem marks_take (n : Nat) (h : ∀ x ∈ s.take n, toLower x ≠ 60) :
    marks s = (s.take n).map (false, ·) ++ marks (s.drop n) := by
  induction n generalizing s with
  | zero => rfl
  | succ n ih =>
    cases s with
    | nil => rfl
    | cons b s =>
      rw [List.take_succ_cons, List.forall_mem_cons] at h
      have htag : tagAt (b :: s) = false := by
        rw [← Bool.not_eq_true, tagAt_cons]
        exact fun htag => h.1 htag.1
      rw [marks, htag, ih h.2]
      rfl

theorem marks_tag (h : tagAt (b :: s) = true) :
    marks (b :: s) = (true, b) :: ((s.take 6).map (false, ·) ++ marks (s.drop 6)) := by
  rw [marks, h, marks_take 6]
  intro x hx
  have hmem := List.mem_map_of_mem (f := toLower) hx
  rw [(tagAt_cons.mp h).2] at hmem
  intro hlt
  rw [hlt] at hmem
  exact absurd hmem (by decide)

theorem marks_untagged (h : ¬ Tagged s) : marks s = s.map (false, ·) := by
  induction s with
  | nil => rfl
  | cons b s ih =>
    have htag : tagAt (b :: s) = false := by
      rw [← Bool.not_eq_true]
      exact fun htag => h ⟨_, (List.mem_tails _ _).mpr (List.suffix_refl _), htag⟩
    have hrest : ¬ Tagged s := fun ⟨p, hp, hpt⟩ =>
      h ⟨p, (List.mem_tails _ _).mpr (((List.mem_tails _ _).mp hp).trans (List.suffix_cons b s)), hpt⟩
    rw [marks, htag, ih hrest, List.map_cons]

theorem not_split_nil (s : Bytes) : ¬ Split s [] := by
  rintro ⟨p, -, -, hshort, htag⟩
  rw [List.append_nil] at htag
  exact absurd (tagAt_length htag) (not_le.mpr hshort)

theorem marks_append (h : ¬ Split s t) : marks (s ++ t) = marks s ++ marks t := by
  induction s with
  | nil => rfl
  | cons b s ih =>
    have htag : tagAt (b :: (s ++ t)) = tagAt (b :: s) := by
      by_cases hlen : 7 ≤ (b :: s).length
      · exact tagAt_append hlen t
      · rw [Bool.eq_iff_iff]
        constructor
        · intro hbegin
          exact absurd ⟨_, (List.mem_tails _ _).mpr (List.suffix_refl _), List.cons_ne_nil b s,
            not_le.mp hlen, hbegin⟩ h
        · intro hbegin
          exact absurd (tagAt_length hbegin) hlen
    have hrest : ¬ Split s t := fun ⟨p, hp, hpt⟩ =>
      h ⟨p, (List.mem_tails _ _).mpr (((List.mem_tails _ _).mp hp).trans (List.suffix_cons b s)), hpt⟩
    rw [List.cons_append, marks, htag, ih hrest, marks, List.cons_append]

namespace Woven

variable {tokens tokens' : List Token} {ms ms' : List (Bool × UInt8)} {out out' : Bytes} {n n' : Nat}

theorem append (h : Woven tokens ms out n) (h' : Woven tokens ms' out' n') :
    Woven tokens (ms ++ ms') (out ++ out') (n + n') := by
  induction h with
  | nil => rwa [List.nil_append, List.nil_append, Nat.zero_add]
  | byte b _ ih => exact .byte b ih
  | form b ht _ ih =>
    rw [List.append_assoc]
    exact .form b ht ih
  | feed _ ih =>
    rw [Nat.succ_add]
    exact .feed ih

theorem mono (h : Woven tokens ms out n) (hsub : tokens ⊆ tokens') : Woven tokens' ms out n := by
  induction h with
  | nil => exact .nil
  | byte b _ ih => exact .byte b ih
  | form b ht _ ih => exact .form b (hsub ht) ih
  | feed _ ih => exact .feed ih

/-- A text without forms is sent as it is. -/
theorem plain (s : Bytes) : Woven tokens (s.map (false, ·)) s 0 := by
  induction s with
  | nil => exact .nil
  | cons b s ih => exact .byte b ih

/-- With tokens of one length the length of the response is known. -/
theorem length_eq (h : Woven tokens ms out n) (len : Nat)
    (hlen : ∀ t ∈ tokens, t.1.length = len) :
    out.length = ms.length + n + (ms.countP Prod.fst) * (51 + len) := by
  induction h with
  | nil => simp
  | byte b _ ih => rw [List.length_cons, ih, List.length_cons, List.countP_cons_of_neg (by simp)]; omega
  | @form b t ms out n ht _ ih =>
    rw [List.length_append, List.length_cons, csrfBuf_length, hlen t ht, ih, List.length_cons,
      List.countP_cons_of_pos rfl, Nat.add_mul]
    omega
  | feed _ ih => rw [List.length_cons, ih]; omega

end Woven

theorem pieces_fuel {k k' : Nat} (h : s.length ≤ k) (h' : s.length ≤ k') :
    pieces token k s = pieces token k' s := by
  induction k generalizing s k' with
  | zero =>
    rw [List.eq_nil_of_length_eq_zero (Nat.le_zero.mp h)]
    cases k' <;> rfl
  | succ k ih =>
    cases s with
    | nil => cases k' <;> rfl
    | cons b s =>
      obtain ⟨k', rfl⟩ := Nat.exists_eq_succ_of_ne_zero (Nat.ne_zero_of_lt h')
      rw [List.length_cons] at h h'
      have hdrop : ((b :: s).drop tockenSize).length ≤ s.length := by
        rw [List.length_drop, List.length_cons, tockenSize]
        omega
      rw [pieces, pieces, ih (by omega : s.length ≤ k) (by omega : s.length ≤ k'),
        ih (by omega : ((b :: s).drop tockenSize).length ≤ k)
          (by omega : ((b :: s).drop tockenSize).length ≤ k')]

/-- What comes of bytes that a pass comes over for the first time. -/
def fed (token : Token) (s : Bytes) : Bytes := (pieces token (s ++ [10]).length (s ++ [10])).flatten

theorem fed_nil : fed token [] = [10] := by
  rw [fed, List.nil_append, List.length_singleton, pieces, if_neg (by decide), if_neg (by decide)]
  rfl

/-- With the line feed behind it a tag at the end of the buffer is long enough. -/
theorem tagAt_fed :
    (tockenSize < (s ++ [10]).length ∧ tagAt (s ++ [10]) = true) ↔ tagAt s = true := by
  rw [List.length_append, List.length_singleton, tockenSize]
  constructor
  · rintro ⟨hlen, htag⟩
    rwa [tagAt_append (by omega)] at htag
  · intro htag
    have hlen := tagAt_length htag
    rw [tagAt_append hlen]
    exact ⟨by omega, htag⟩

theorem fed_byte (hb : b ≠ 0) (h : tagAt (b :: s) = false) :
    fed token (b :: s) = b :: fed token s := by
  have hno : ¬ (tockenSize < (b :: (s ++ [10])).length ∧ tagAt (b :: (s ++ [10])) = true) := by
    rw [← List.cons_append, tagAt_fed, h]
    exact Bool.false_ne_true
  rw [fed, List.cons_append, List.length_cons, pieces, if_neg hb, if_neg hno]
  rfl

theorem fed_tag (hb : b ≠ 0) (h : tagAt (b :: s) = true) :
    fed token (b :: s) = csrfBuf token ++ b :: (s.take 6 ++ fed token (s.drop 6)) := by
  have hyes : tockenSize < (b :: (s ++ [10])).length ∧ tagAt (b :: (s ++ [10])) = true := by
    rwa [← List.cons_append, tagAt_fed]
  have hlen : 6 ≤ s.length := Nat.le_of_succ_le_succ (tagAt_length h)
  have htake : (b :: (s ++ [10])).take tockenSize = b :: s.take 6 := by
    rw [tockenSize, List.take_succ_cons, List.take_append_of_le_length hlen]
  have hdrop : (b :: (s ++ [10])).drop tockenSize = s.drop 6 ++ [10] := by
    rw [tockenSize, List.drop_succ_cons, List.drop_append_of_le_length hlen]
  rw [fed, List.cons_append, List.length_cons, pieces, if_neg hb, if_pos hyes, htake, hdrop,
    List.flatten_cons, fed, pieces_fuel (by simp) le_rfl]
  simp

theorem clean_tail (h : (0 : UInt8) ∉ b :: s) : (0 : UInt8) ∉ s :=
  fun hs => h (List.mem_cons_of_mem b hs)

theorem clean_drop (h : (0 : UInt8) ∉ s) (n : Nat) : (0 : UInt8) ∉ s.drop n :=
  fun hs => h (List.mem_of_mem_drop hs)

theorem clean_head (h : (0 : UInt8) ∉ b :: s) : b ≠ 0 := fun hb => h (hb ▸ List.mem_cons_self)

/-- A pass over bytes without zeros, byte by byte and tag by tag. -/
theorem fed_induction {motive : ∀ s : Bytes, (0 : UInt8) ∉ s → Prop}
    (nil : motive [] List.not_mem_nil)
    (byte : ∀ b s (h : (0 : UInt8) ∉ b :: s), tagAt (b :: s) = false →
      motive s (clean_tail h) → motive (b :: s) h)
    (tag : ∀ b s (h : (0 : UInt8) ∉ b :: s), tagAt (b :: s) = true →
      motive (s.drop 6) (clean_drop (clean_tail h) 6) → motive (b :: s) h)
    (s : Bytes) (h : (0 : UInt8) ∉ s) : motive s h := by
  induction hlen : s.length using Nat.strong_induction_on generalizing s with
  | _ len ih =>
    cases s with
    | nil => exact nil
    | cons b s =>
      rw [List.length_cons] at hlen
      cases htag : tagAt (b :: s) with
      | false => exact byte b s h htag (ih s.length (by omega) s _ rfl)
      | true => exact tag b s h htag (ih (s.drop 6).length (by rw [List.length_drop]; omega) _ _ rfl)

/-- A pass weaves its token into the text and adds one line feed. -/
theorem fed_woven (h : (0 : UInt8) ∉ s) {tokens : List Token} (ht : token ∈ tokens) :
    Woven tokens (marks s) (fed token s) 1 := by
  induction s, h using fed_induction with
  | nil =>
    rw [fed_nil]
    exact .feed .nil
  | byte b s h htag ih =>
    rw [fed_byte (clean_head h) htag, marks, htag]
    exact .byte b ih
  | tag b s h htag ih =>
    rw [fed_tag (clean_head h) htag, marks_tag htag]
    refine .form b ht ?_
    have hrest := (Woven.plain (s.take 6)).append ih
    rwa [Nat.zero_add] at hrest

theorem csrfBuf_clean (token : Token) : (0 : UInt8) ∉ csrfBuf token := by
  rw [csrfBuf, List.mem_append, List.mem_append]
  rintro ((hzero | hzero) | hzero)
  · exact absurd hzero (by decide)
  · exact token.2.2 hzero
  · exact absurd hzero (by decide)

theorem fed_clean (h : (0 : UInt8) ∉ s) : (0 : UInt8) ∉ fed token s := by
  induction s, h using fed_induction with
  | nil =>
    rw [fed_nil]
    decide
  | byte b s h htag ih =>
    rw [fed_byte (clean_head h) htag, List.mem_cons, not_or]
    exact ⟨(clean_head h).symm, ih⟩
  | tag b s h htag ih =>
    rw [fed_tag (clean_head h) htag, List.mem_append, List.mem_cons, List.mem_append]
    rintro (hzero | hzero | hzero | hzero)
    · exact csrfBuf_clean token hzero
    · exact clean_head h hzero.symm
    · exact clean_tail h (List.mem_of_mem_take hzero)
    · exact ih hzero

theorem fed_ends (token : Token) (h : (0 : UInt8) ∉ s) : ∃ l, fed token s = l ++ [10] := by
  induction s, h using fed_induction with
  | nil => exact ⟨[], fed_nil⟩
  | byte b s h htag ih =>
    obtain ⟨l, hl⟩ := ih
    exact ⟨b :: l, by rw [fed_byte (clean_head h) htag, hl, List.cons_append]⟩
  | tag b s h htag ih =>
    obtain ⟨l, hl⟩ := ih
    exact ⟨csrfBuf token ++ b :: (s.take 6 ++ l), by rw [fed_tag (clean_head h) htag, hl]; simp⟩

theorem pieces_over (token : Token) {l : Bytes} (rest : Bytes) (hclean : (0 : UInt8) ∉ l)
    (hno : ∀ p, p <:+ l → p ≠ [] → tagAt (p ++ rest) = false) :
    (pieces token (l ++ rest).length (l ++ rest)).flatten =
      l ++ (pieces token rest.length rest).flatten := by
  induction l with
  | nil => rfl
  | cons b l ih =>
    have htag : tagAt (b :: (l ++ rest)) = false := hno _ (List.suffix_refl _) (List.cons_ne_nil b l)
    have hrest := ih (clean_tail hclean) fun p hp => hno p (hp.trans (List.suffix_cons b l))
    rw [List.cons_append, List.length_cons, pieces, if_neg (clean_head hclean), htag,
      if_neg (by simp), List.flatten_cons, hrest]
    rfl

/-- What ends with a line feed and has no tag in it is left as it is when a pass comes over it
again, whatever follows. -/
theorem untagged_over {l : Bytes} (h : ¬ Tagged l) (hend : l = [] ∨ ∃ l', l = l' ++ [10])
    (rest : Bytes) : ∀ p, p <:+ l → p ≠ [] → tagAt (p ++ rest) = false := by
  intro p hp hne
  rw [← Bool.not_eq_true]
  intro htag
  by_cases hlen : 7 ≤ p.length
  · rw [tagAt_append hlen] at htag
    exact h ⟨p, (List.mem_tails _ _).mpr hp, htag⟩
  · rcases hend with rfl | ⟨l', rfl⟩
    · exact hne (List.suffix_nil.mp hp)
    · have hlast : p.getLast hne = 10 := by
        rw [hp.getLast hne, List.getLast_append_of_ne_nil _ (List.cons_ne_nil _ _)]
        rfl
      have hfeed : (10 : UInt8) ∈ p := hlast ▸ List.getLast_mem hne
      apply tagAt_no_feed htag
      rw [List.take_append]
      exact List.mem_append_left _ (by rwa [List.take_of_length_le (by omega)])

/-- A pass leaves what it comes over again and weaves its token into the rest. -/
theorem gone_eq {buffer : Bytes} {e looked : Nat} (he : e ≤ looked) (hlooked : looked ≤ buffer.length)
    (hclean : (0 : UInt8) ∉ buffer) (h : ¬ Tagged ((buffer.take looked).drop e))
    (hend : (buffer.take looked).drop e = [] ∨ ∃ l, (buffer.take looked).drop e = l ++ [10]) :
    gone token e buffer = buffer.take looked ++ fed token (buffer.drop looked) := by
  have hback : buffer.drop e = (buffer.take looked).drop e ++ buffer.drop looked := by
    rw [← List.drop_append_of_le_length (by rw [List.length_take]; omega), List.take_append_drop]
  have hfront : buffer.take e ++ (buffer.take looked).drop e = buffer.take looked := by
    have htake := List.take_append_drop e (buffer.take looked)
    rwa [List.take_take, min_eq_left he] at htake
  have hover := pieces_over token (buffer.drop looked ++ [10])
    (fun hz => hclean (List.mem_of_mem_take (List.mem_of_mem_drop hz)))
    (untagged_over h hend _)
  rw [gone, hback, List.append_assoc, hover, ← List.append_assoc, hfront, fed]

end CsrfWeaving
