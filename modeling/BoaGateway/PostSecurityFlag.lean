import BoaGateway.FormSubmission

/-!
# The checksum of a form

The page script sums what it expects the browser to send, and `handleForm` sums what it gets
in front of the flag. The numbers of the script are doubles, and its bit operators work on
32 bits.
-/

namespace PostSecurityFlag

open ByteBlocks Texts Occurrences CgiParams FormSubmission

/-- A number is rounded to 53 significant bits, and to an even one between two. -/
def toDouble (x : Int) : Int :=
  if x.natAbs ≤ 2 ^ 53 then x
  else
    let unit := 2 ^ (x.natAbs.log2 - 52)
    let low := x.natAbs / unit
    let rest := x.natAbs % unit
    let near := if 2 * rest < unit ∨ 2 * rest = unit ∧ low % 2 = 0 then low else low + 1
    x.sign * (near * unit)

def toInt32 (x : Int) : Int := x.bmod (2 ^ 32)

def shiftLeft (c : UInt8) (k : Nat) : Int := toInt32 (c.toNat * 2 ^ k)

/-- The loop of the script over the codes of `inputVal`. -/
def scriptSum (csum : Int) : Bytes → Int
  | a :: b :: c :: d :: s =>
    scriptSum (toDouble (csum +
      (shiftLeft a 24 + shiftLeft b 16 + shiftLeft c 8 + d.toNat))) s
  | [a, b, c] =>
    toDouble (toDouble (toDouble (csum + shiftLeft a 24) + shiftLeft b 16) + shiftLeft c 8)
  | [a, b] => toDouble (toDouble (csum + shiftLeft a 24) + shiftLeft b 16)
  | [a] => toDouble (csum + shiftLeft a 24)
  | [] => csum

def scriptFold (csum : Int) : Int :=
  let csum := toInt32 csum % 65536 + toInt32 csum / 65536
  let csum := toInt32 csum % 65536
  toInt32 (-toInt32 csum - 1) % 65536

/-- What `postTableEncrypt` puts into the flag. -/
def scriptChecksum (fields : List TextField) : Nat :=
  (scriptFold (scriptSum 0 (inputVal fields))).toNat

/-- A `char` of the body, which has a sign. -/
def charValue (c : UInt8) : Int := if c < 128 then c.toNat else c.toNat - 256

/-- The loop of `handleForm`. -/
def postSum (csum : Nat) : Bytes → Nat
  | a :: b :: c :: d :: s =>
    postSum (u32OfInt (csum + (charValue a * 2 ^ 24 + charValue b * 2 ^ 16 +
      charValue c * 2 ^ 8 + charValue d))) s
  | [a, b, c] =>
    u32OfInt (u32OfInt (u32OfInt (csum + charValue a * 2 ^ 24) + charValue b * 2 ^ 16) +
      charValue c * 2 ^ 8)
  | [a, b] => u32OfInt (u32OfInt (csum + charValue a * 2 ^ 24) + charValue b * 2 ^ 16)
  | [a] => u32OfInt (csum + charValue a * 2 ^ 24)
  | [] => csum

def postFold (csum : Nat) : Nat :=
  let csum := csum % 65536 + csum / 65536
  let csum := csum % 65536
  65535 - csum

/-- The checksum of `handleForm`, if it finds the flag. -/
def handleFormChecksum (body : Bytes) : Option Nat :=
  match memstr body flagName with
  | some (some (before, _)) => some (postFold (postSum 0 before))
  | _ => none

/-- The sum without rounding and without overflow. -/
def wordSum : Bytes → Nat
  | a :: b :: c :: d :: s =>
    a.toNat * 2 ^ 24 + b.toNat * 2 ^ 16 + c.toNat * 2 ^ 8 + d.toNat + wordSum s
  | [a, b, c] => a.toNat * 2 ^ 24 + b.toNat * 2 ^ 16 + c.toNat * 2 ^ 8
  | [a, b] => a.toNat * 2 ^ 24 + b.toNat * 2 ^ 16
  | [a] => a.toNat * 2 ^ 24
  | [] => 0

theorem toDouble_exact {n : Nat} (h : n ≤ 2 ^ 53) : toDouble n = n := if_pos h

theorem shiftLeft_ascii {c : UInt8} (hc : c < 128) {k : Nat} (hk : k ≤ 24) :
    shiftLeft c k = (c.toNat * 2 ^ k : Nat) := by
  have hlt : c.toNat < 128 := UInt8.lt_iff_toNat_lt.mp hc
  have hpow : 2 ^ k ≤ 2 ^ 24 := Nat.pow_le_pow_right (by decide) hk
  have hle : c.toNat * 2 ^ k ≤ 127 * 2 ^ 24 := Nat.mul_le_mul (Nat.le_of_lt_succ hlt) hpow
  have hcast : (c.toNat * 2 ^ k : Int) = (c.toNat * 2 ^ k : Nat) := by push_cast; rfl
  rw [shiftLeft, toInt32, hcast]
  apply Int.bmod_eq_of_le
  · omega
  · omega

theorem charValue_ascii {c : UInt8} (hc : c < 128) : charValue c = c.toNat := if_pos hc

/-- One addition of the script. -/
theorem toDouble_add {n m : Nat} {x : Int} (hx : x = m) (h : n + m ≤ 2 ^ 53) :
    toDouble (n + x) = (n + m : Nat) := by
  rw [hx, ← Int.natCast_add]
  exact toDouble_exact h

theorem scriptSum_eq {n : Nat} {s : Bytes} (hs : ∀ c ∈ s, c < 128)
    (h : n + wordSum s ≤ 2 ^ 53) : scriptSum n s = (n + wordSum s : Nat) := by
  fun_induction wordSum s generalizing n with
  | case1 a b c d s ih =>
    simp only [List.forall_mem_cons] at hs
    obtain ⟨ha, hb, hc, hd, hs⟩ := hs
    have hword : shiftLeft a 24 + shiftLeft b 16 + shiftLeft c 8 + d.toNat =
        (a.toNat * 2 ^ 24 + b.toNat * 2 ^ 16 + c.toNat * 2 ^ 8 + d.toNat : Nat) := by
      rw [shiftLeft_ascii ha (by decide), shiftLeft_ascii hb (by decide),
        shiftLeft_ascii hc (by decide)]
      push_cast
      rfl
    rw [← Nat.add_assoc] at h ⊢
    rw [scriptSum, toDouble_add hword (Nat.le_of_add_right_le h)]
    exact ih hs h
  | case2 a b c =>
    simp only [List.forall_mem_cons] at hs
    obtain ⟨ha, hb, hc, -⟩ := hs
    rw [← Nat.add_assoc, ← Nat.add_assoc] at h ⊢
    have hfront := Nat.le_of_add_right_le h
    rw [scriptSum, toDouble_add (shiftLeft_ascii ha (by decide)) (Nat.le_of_add_right_le hfront),
      toDouble_add (shiftLeft_ascii hb (by decide)) hfront]
    exact toDouble_add (shiftLeft_ascii hc (by decide)) h
  | case3 a b =>
    simp only [List.forall_mem_cons] at hs
    obtain ⟨ha, hb, -⟩ := hs
    rw [← Nat.add_assoc] at h ⊢
    rw [scriptSum, toDouble_add (shiftLeft_ascii ha (by decide)) (Nat.le_of_add_right_le h)]
    exact toDouble_add (shiftLeft_ascii hb (by decide)) h
  | case4 a =>
    simp only [List.forall_mem_cons] at hs
    exact toDouble_add (shiftLeft_ascii hs.1 (by decide)) h
  | case5 => rfl

/-- One addition of the server. -/
theorem u32OfInt_add {n m : Nat} {x : Int} (hx : x = m) :
    u32OfInt ((u32 n : Nat) + x) = u32 (n + m) := by
  rw [hx, u32OfInt, u32, u32]
  omega

theorem charValue_shift {c : UInt8} (hc : c < 128) (k : Nat) :
    charValue c * 2 ^ k = (c.toNat * 2 ^ k : Nat) := by
  rw [charValue_ascii hc]
  push_cast
  rfl

theorem postSum_eq {n : Nat} {s : Bytes} (hs : ∀ c ∈ s, c < 128) :
    postSum (u32 n) s = u32 (n + wordSum s) := by
  fun_induction wordSum s generalizing n with
  | case1 a b c d s ih =>
    simp only [List.forall_mem_cons] at hs
    obtain ⟨ha, hb, hc, hd, hs⟩ := hs
    have hword : charValue a * 2 ^ 24 + charValue b * 2 ^ 16 + charValue c * 2 ^ 8 + charValue d =
        (a.toNat * 2 ^ 24 + b.toNat * 2 ^ 16 + c.toNat * 2 ^ 8 + d.toNat : Nat) := by
      rw [charValue_shift ha, charValue_shift hb, charValue_shift hc, charValue_ascii hd]
      push_cast
      rfl
    rw [postSum, u32OfInt_add hword, ih hs, Nat.add_assoc]
  | case2 a b c =>
    simp only [List.forall_mem_cons] at hs
    obtain ⟨ha, hb, hc, -⟩ := hs
    rw [postSum, u32OfInt_add (charValue_shift ha 24), u32OfInt_add (charValue_shift hb 16),
      ← Nat.add_assoc, ← Nat.add_assoc]
    exact u32OfInt_add (charValue_shift hc 8)
  | case3 a b =>
    simp only [List.forall_mem_cons] at hs
    obtain ⟨ha, hb, -⟩ := hs
    rw [postSum, u32OfInt_add (charValue_shift ha 24), ← Nat.add_assoc]
    exact u32OfInt_add (charValue_shift hb 16)
  | case4 a =>
    simp only [List.forall_mem_cons] at hs
    exact u32OfInt_add (charValue_shift hs.1 24)
  | case5 => rfl

theorem toInt32_eq (x : Int) : ∃ q : Int, toInt32 x = x - 4294967296 * q :=
  ⟨Int.bdiv x (2 ^ 32), Int.bmod_eq_self_sub_mul_bdiv x (2 ^ 32)⟩

/-- The two ways to fold a sum agree, whatever the sign of the script's number is. -/
theorem folds_agree (n : Nat) : scriptFold n = (postFold (u32 n) : Nat) := by
  rw [scriptFold, postFold, u32]
  obtain ⟨q₁, hsum⟩ := toInt32_eq n
  generalize toInt32 (n : Int) = a at *
  obtain ⟨q₂, hfold⟩ := toInt32_eq (a % 65536 + a / 65536)
  generalize toInt32 (a % 65536 + a / 65536) = b at *
  obtain ⟨q₃, hcut⟩ := toInt32_eq (b % 65536)
  generalize toInt32 (b % 65536) = c at *
  obtain ⟨q₄, hnot⟩ := toInt32_eq (-c - 1)
  generalize toInt32 (-c - 1) = d at *
  omega

/-- A text whose sum is a double is summed alike by both sides. -/
theorem checksums_agree {s : Bytes} (hs : ∀ c ∈ s, c < 128) (h : wordSum s ≤ 2 ^ 53) :
    (scriptFold (scriptSum 0 s)).toNat = postFold (postSum 0 s) := by
  have hscript : scriptSum 0 s = (0 + wordSum s : Nat) := scriptSum_eq hs (by rwa [Nat.zero_add])
  have hpost : postSum 0 s = u32 (0 + wordSum s) := postSum_eq (n := 0) hs
  rw [hscript, folds_agree, hpost, Int.toNat_natCast]

/-- The flag's name is neither in the field's name nor in its value. -/
def FlagFree (f : TextField) : Prop :=
  ¬ flagName <:+: f.name ∧ ¬ flagName <:+: formEncode (utf8 (normalizeLineBreaks f.value))

instance : DecidablePred FlagFree := fun f =>
  inferInstanceAs (Decidable (_ ∧ ¬ flagName <:+: formEncode (utf8 (normalizeLineBreaks f.value))))

/-- A field that both sides see alike. -/
structure Plain (f : TextField) : Prop where
  sent : f.name ≠ [] ∧ f.name ≠ ascii "csrftoken"
  free : FlagFree f
  breaks : normalizeLineBreaks f.value = f.value

/-- Fields that both sides see alike, and behind them only fields that the script skips, the
first of which looks like the flag. -/
def SameFields (fields : List TextField) : Prop :=
  ∃ front back, (fields.filter fun f => f.name != []) = front ++ back ∧ (∀ f ∈ front, Plain f) ∧
    (∀ f ∈ back, scriptSkips f = true) ∧ ∀ f, back.head? = some f → f.name = flagName

def records (fs : List Bytes) : Bytes := fs.flatMap fun r => r ++ [amp]

theorem records_cons (r : Bytes) (fs : List Bytes) (rest : Bytes) :
    records (r :: fs) ++ rest = r ++ amp :: (records fs ++ rest) := by
  simp [records]

/-- A text has only one division into records. -/
theorem records_unique {xs ys : List Bytes} {rest : Bytes} (hxs : ∀ x ∈ xs, amp ∉ x)
    (hys : ∀ y ∈ ys, amp ∉ y) (hrest : amp ∉ rest) (h : records xs = records ys ++ rest) :
    xs = ys ∧ rest = [] := by
  induction xs generalizing ys with
  | nil =>
    cases ys with
    | nil => exact ⟨rfl, h.symm⟩
    | cons y ys =>
      rw [records_cons] at h
      exact absurd h (by simp [records])
  | cons x xs ih =>
    have hcut := cutFirst_singleton (hxs x List.mem_cons_self) (records xs)
    have hx := records_cons x xs []
    rw [List.append_nil, List.append_nil] at hx
    rw [← hx, h] at hcut
    cases ys with
    | nil =>
      have hnone : cutFirst [amp] rest = none := cutFirst_singleton_none hrest
      exact absurd (hnone.symm.trans hcut) (by simp)
    | cons y ys =>
      rw [records_cons, cutFirst_singleton (hys y List.mem_cons_self), Option.some_inj,
        Prod.mk.injEq] at hcut
      obtain ⟨rfl, htail⟩ := hcut
      obtain ⟨rfl, hnil⟩ := ih (fun x' hx' => hxs x' (List.mem_cons_of_mem _ hx'))
        (fun y' hy' => hys y' (List.mem_cons_of_mem _ hy')) htail.symm
      exact ⟨rfl, hnil⟩

theorem equals_name (f : TextField) : equals ∉ f.name :=
  word_plain f (by decide)

theorem amp_name (f : TextField) : amp ∉ f.name :=
  word_plain f (by decide)

theorem amp_scriptRecord (f : TextField) : amp ∉ scriptRecord f := by
  rw [scriptRecord, List.mem_append, List.mem_cons, not_or, not_or]
  exact ⟨amp_name f, by decide, amp_formEncode _⟩

theorem amp_sentRecord (f : TextField) : amp ∉ sentRecord f := by
  rw [sentRecord, List.mem_append, List.mem_cons, not_or, not_or]
  exact ⟨amp_name f, by decide, amp_formEncode _⟩

/-- Equal records have equal names, and the value has no line break that is rewritten. -/
theorem record_eq {f g : TextField} (h : scriptRecord f = sentRecord g) :
    f.name = g.name ∧ formEncode (utf8 f.value) = formEncode (utf8 (normalizeLineBreaks g.value)) := by
  have hcut := cutFirst_singleton (equals_name f) (formEncode (utf8 f.value))
  rw [← scriptRecord, h, sentRecord, cutFirst_singleton (equals_name g), Option.some_inj,
    Prod.mk.injEq] at hcut
  exact ⟨hcut.1.symm, hcut.2.symm⟩

/-- The search passes fields that do not look like the flag. -/
theorem cutFirst_free {fs : List TextField} (hfs : ∀ f ∈ fs, FlagFree f) (rest : Bytes) :
    cutFirst flagName (records (fs.map sentRecord) ++ rest) =
      (cutFirst flagName rest).map fun q => (records (fs.map sentRecord) ++ q.1, q.2) := by
  induction fs with
  | nil => simp [records]
  | cons f fs ih =>
    obtain ⟨hname, hvalue⟩ := hfs f List.mem_cons_self
    rw [← cutFirst_eq_none_iff] at hname hvalue
    rw [List.map_cons, records_cons, sentRecord, List.append_assoc, List.cons_append,
      cutFirst_of_not_occurs (by decide) (by decide) hname,
      cutFirst_of_not_occurs (by decide) (by decide) hvalue,
      ih fun g hg => hfs g (List.mem_cons_of_mem f hg), Option.map_map, Option.map_map]
    congr 1
    funext q
    simp [Function.comp, records_cons]

/-- What is found in a field that looks like the flag. -/
theorem cutFirst_flagged {g : TextField} (hg : ¬ FlagFree g) (rest : Bytes) :
    ∃ before behind, cutFirst flagName (sentRecord g ++ amp :: rest) = some (before, behind) ∧
      amp ∉ before ∧ (before = [] → flagName <+: g.name) := by
  rw [sentRecord, List.append_assoc, List.cons_append]
  cases hname : cutFirst flagName g.name with
  | some found =>
    obtain ⟨before, behind⟩ := found
    have hsplit := cutFirst_eq_some hname
    refine ⟨before, _, cutFirst_of_occurs (by decide) (by decide) hname _, ?_, ?_⟩
    · intro hamp
      apply amp_name g
      rw [hsplit]
      exact List.mem_append_left _ hamp
    · rintro rfl
      rw [hsplit]
      exact List.prefix_append flagName behind
  | none =>
    cases hvalue : cutFirst flagName (formEncode (utf8 (normalizeLineBreaks g.value))) with
    | none => exact absurd ⟨cutFirst_eq_none_iff.mp hname, cutFirst_eq_none_iff.mp hvalue⟩ hg
    | some found =>
      obtain ⟨before, behind⟩ := found
      have hsplit := cutFirst_eq_some hvalue
      rw [cutFirst_of_not_occurs (by decide) (by decide) hname,
        cutFirst_of_occurs (by decide) (by decide) hvalue]
      refine ⟨g.name ++ equals :: before, _, rfl, ?_, by simp⟩
      rw [List.mem_append, List.mem_cons, not_or, not_or]
      refine ⟨amp_name g, by decide, fun hamp => ?_⟩
      apply amp_formEncode (utf8 (normalizeLineBreaks g.value))
      rw [hsplit]
      exact List.mem_append_left _ hamp

/-- The text in front of the first place that looks like the flag. -/
def sentText (fields : List TextField) (csum : Nat) : Option Bytes :=
  (cutFirst flagName (submission fields csum)).map Prod.fst

def named (fields : List TextField) : List TextField := fields.filter fun f => f.name != []

def kept (fields : List TextField) : List TextField := fields.filter fun f => !scriptSkips f

theorem kept_named (fields : List TextField) : kept (named fields) = kept fields := by
  rw [kept, named, List.filter_filter, kept]
  congr 1
  funext f
  by_cases hname : f.name = []
  · simp [scriptSkips, hname]
  · simp [hname]

theorem inputVal_records (fields : List TextField) :
    inputVal fields = records ((kept (named fields)).map scriptRecord) := by
  rw [inputVal_eq, kept_named, records, List.flatMap_map]
  rfl

theorem submission_records (fields : List TextField) (csum : Nat) :
    submission fields csum =
      records ((named fields).map sentRecord) ++ sentRecord (flagField csum) := by
  rw [submission_eq, records, List.flatMap_map]
  rfl

theorem records_append (xs ys : List Bytes) : records (xs ++ ys) = records xs ++ records ys :=
  List.flatMap_append

theorem Plain.kept {f : TextField} (h : Plain f) : scriptSkips f = false := by
  obtain ⟨⟨hne, htoken⟩, ⟨hname, -⟩, -⟩ := h
  have hflag : f.name ≠ flagName := fun h => hname (h ▸ List.infix_rfl)
  simp [scriptSkips, hne, htoken, hflag]

theorem Plain.record {f : TextField} (h : Plain f) : scriptRecord f = sentRecord f := by
  rw [scriptRecord, sentRecord, h.breaks]

theorem sentText_of_same {fields : List TextField} (h : SameFields fields) (csum : Nat) :
    sentText fields csum = some (inputVal fields) := by
  obtain ⟨front, back, hnamed, hfront, hback, hhead⟩ := h
  change named fields = front ++ back at hnamed
  have hkept : kept (named fields) = front := by
    have hall : kept front = front :=
      List.filter_eq_self.mpr fun f hf => by simp [(hfront f hf).kept]
    have hnone : kept back = [] := List.filter_eq_nil_iff.mpr fun f hf => by simp [hback f hf]
    rw [hnamed, kept, List.filter_append, ← kept, ← kept, hall, hnone, List.append_nil]
  have hsame : front.map scriptRecord = front.map sentRecord :=
    List.map_congr_left fun f hf => (hfront f hf).record
  -- behind the fields in front stands the flag's name
  obtain ⟨rest, hrest⟩ : ∃ rest,
      records (back.map sentRecord) ++ sentRecord (flagField csum) = flagName ++ rest := by
    cases back with
    | nil => exact ⟨_, rfl⟩
    | cons g back =>
      have hname : g.name = flagName := hhead g rfl
      rw [List.map_cons, records_cons, sentRecord, hname, List.append_assoc]
      exact ⟨_, rfl⟩
  rw [sentText, submission_records, hnamed, List.map_append, records_append, List.append_assoc,
    hrest, cutFirst_free fun f hf => (hfront f hf).free, cutFirst_self_append, inputVal_records,
    hkept, hsame]
  simp

/-- The first field that looks like the flag. -/
theorem split_at_flag (fs : List TextField) :
    ∃ front back, fs = front ++ back ∧ (∀ f ∈ front, FlagFree f) ∧
      ∀ f, back.head? = some f → ¬ FlagFree f := by
  refine ⟨fs.takeWhile FlagFree, fs.dropWhile FlagFree, List.takeWhile_append_dropWhile.symm,
    ?_, ?_⟩
  · intro f hf
    simpa using List.mem_takeWhile_imp hf
  · intro f hf
    have hno := List.head?_dropWhile_not (fun f => decide (FlagFree f)) fs
    rw [hf] at hno
    simpa using hno

theorem same_of_sentText {fields : List TextField} {csum : Nat}
    (h : sentText fields csum = some (inputVal fields)) : SameFields fields := by
  obtain ⟨front, back, hnamed, hfront, hhead⟩ := split_at_flag (named fields)
  -- what the search leaves of the first field that looks like the flag
  obtain ⟨rest, hsent, hamp, hrest⟩ : ∃ rest,
      sentText fields csum = some (records (front.map sentRecord) ++ rest) ∧ amp ∉ rest ∧
        (rest = [] → ∀ f, back.head? = some f → flagName <+: f.name) := by
    rw [sentText, submission_records, hnamed, List.map_append, records_append, List.append_assoc,
      cutFirst_free hfront]
    cases back with
    | nil =>
      have hflag : cutFirst flagName (sentRecord (flagField csum)) = some ([], _) :=
        cutFirst_self_append flagName _
      refine ⟨[], ?_, List.not_mem_nil, by simp⟩
      have hempty : records ([].map sentRecord) = [] := rfl
      rw [hempty, List.nil_append, hflag]
      rfl
    | cons g back =>
      obtain ⟨before, behind, hcut, hamp, hname⟩ := cutFirst_flagged (hhead g rfl)
        (records (back.map sentRecord) ++ sentRecord (flagField csum))
      refine ⟨before, ?_, hamp, ?_⟩
      · rw [List.map_cons, records_cons, hcut]
        rfl
      · rintro rfl f hf
        cases hf
        exact hname rfl
  rw [hsent, Option.some_inj, inputVal_records] at h
  obtain ⟨hrecords, hnil⟩ := records_unique (by simp [amp_scriptRecord])
    (by simp [amp_sentRecord]) hamp h.symm
  have hkeeps : ∀ f ∈ front, ∃ k, scriptSkips k = false ∧ scriptRecord k = sentRecord f := by
    intro f hf
    have hmem : sentRecord f ∈ (kept (named fields)).map scriptRecord :=
      hrecords ▸ List.mem_map_of_mem hf
    obtain ⟨k, hk, hrecord⟩ := List.mem_map.mp hmem
    exact ⟨k, by simpa using (List.mem_filter.mp hk).2, hrecord⟩
  have hskips : ∀ f ∈ front, scriptSkips f = false := by
    intro f hf
    obtain ⟨k, hk, hrecord⟩ := hkeeps f hf
    rw [scriptSkips, ← (record_eq hrecord).1]
    exact hk
  have hkept : kept (named fields) = front ++ kept back := by
    have hall : kept front = front :=
      List.filter_eq_self.mpr fun f hf => by simp [hskips f hf]
    rw [hnamed, kept, List.filter_append, ← kept, ← kept, hall]
  have hback : kept back = [] := by
    have hlen := congrArg List.length hrecords
    rw [hkept, List.length_map, List.length_map, List.length_append] at hlen
    exact List.length_eq_zero_iff.mp (by omega)
  rw [hkept, hback, List.append_nil] at hrecords
  refine ⟨front, back, hnamed, ?_, ?_, ?_⟩
  · intro f hf
    have hrecord := List.map_inj_left.mp hrecords f hf
    refine ⟨?_, hfront f hf, ?_⟩
    · have hno := hskips f hf
      simp only [scriptSkips, Bool.or_eq_false_iff, beq_eq_false_iff_ne] at hno
      exact ⟨hno.1.1, hno.2⟩
    · exact (formEncode_breaks_iff f.value).mp (record_eq hrecord).2.symm
  · intro f hf
    simpa using List.filter_eq_nil_iff.mp hback f hf
  · intro f hf
    have hskip : scriptSkips f = true := by
      simpa using List.filter_eq_nil_iff.mp hback f (List.mem_of_mem_head? hf)
    have hflag := hrest hnil f hf
    simp only [scriptSkips, Bool.or_eq_true, beq_iff_eq] at hskip
    rcases hskip with (hname | hname) | hname
    · rw [hname] at hflag
      exact absurd hflag (by decide)
    · exact hname
    · rw [hname] at hflag
      exact absurd hflag (by decide)

theorem handleFormChecksum_eq (fields : List TextField) (csum : Nat) :
    handleFormChecksum (submission fields csum) =
      (sentText fields csum).map fun before => postFold (postSum 0 before) := by
  rw [handleFormChecksum, memstr_of_fits (by decide), sentText]
  cases cutFirst flagName (submission fields csum) with
  | none => rfl
  | some found => rfl

theorem inputVal_ascii (fields : List TextField) : ∀ c ∈ inputVal fields, c < 128 := by
  intro c hc
  rw [inputVal_eq] at hc
  obtain ⟨f, -, hf⟩ := List.mem_flatMap.mp hc
  rw [scriptRecord, List.append_assoc, List.mem_append] at hf
  rcases hf with hname | hrest
  · have hword := List.all_eq_true.mp f.name_word c hname
    rw [isWord, Bool.or_eq_true, beq_iff_eq] at hword
    rcases hword with halnum | rfl
    · exact isAlnum_lt halnum
    · decide
  rw [List.cons_append, List.mem_cons, List.mem_append, List.mem_singleton] at hrest
  rcases hrest with rfl | hvalue | rfl
  · decide
  · exact formEncode_ascii _ c hvalue
  · decide

/-- The server sums the text that the script sums exactly for fields of this kind, and then the
two sides agree, as long as the sum is a double. -/
theorem checksum_accepted (fields : List TextField) :
    (sentText fields (scriptChecksum fields) = some (inputVal fields) ↔ SameFields fields) ∧
      (SameFields fields → wordSum (inputVal fields) ≤ 2 ^ 53 →
        handleFormChecksum (submission fields (scriptChecksum fields)) =
          some (scriptChecksum fields)) := by
  constructor
  · exact ⟨same_of_sentText, fun h => sentText_of_same h _⟩
  · intro hsame hsum
    rw [handleFormChecksum_eq, sentText_of_same hsame, Option.map_some, scriptChecksum,
      checksums_agree (inputVal_ascii fields) hsum]

def textField (name : String) (value : List Char)
    (hname : (ascii name).all isWord = true) : TextField where
  name := ascii name
  value := value
  name_word := hname

/-- A text of two empty lines. -/
def lineField : TextField := textField "a" ['\n'] (by decide)

theorem line_break_refused :
    ¬ ∀ fields : List TextField, handleFormChecksum (submission fields (scriptChecksum fields)) =
      some (scriptChecksum fields) := by
  intro hclaim
  have hagree := hclaim [lineField]
  have hfree : ∀ f ∈ [lineField], FlagFree f := by
    intro f hf
    rw [List.mem_singleton.mp hf]
    decide
  have hsent : ∀ csum, sentText [lineField] csum = some (records [sentRecord lineField]) := by
    intro csum
    have hflag : cutFirst flagName (sentRecord (flagField csum)) = some ([], _) :=
      cutFirst_self_append flagName _
    have hnamed : named [lineField] = [lineField] := rfl
    rw [sentText, submission_records, hnamed, cutFirst_free hfree, hflag]
    rfl
  rw [handleFormChecksum_eq, hsent, Option.map_some, scriptChecksum, inputVal_records] at hagree
  revert hagree
  decide

/-- A comment with a quotation mark, a blank and a line break, and the button of the form. -/
def commentFields : List TextField :=
  [textField "comment" ['"', 'o', 'n', '"', ' ', '&', '\r', '\n', 'é'] (by decide),
    textField "save" ['A', 'p', 'p', 'l', 'y', ' ', '1', '0', '0', '%'] (by decide)]

theorem checksum_accepted_comment :
    handleFormChecksum (submission commentFields (scriptChecksum commentFields)) =
      some (scriptChecksum commentFields) := by
  apply (checksum_accepted commentFields).2
  · refine ⟨commentFields, [], rfl, ?_, by simp, by simp⟩
    intro f hf
    simp only [commentFields, List.mem_cons, List.not_mem_nil, or_false] at hf
    rcases hf with rfl | rfl
    · exact ⟨by decide, by decide, by decide⟩
    · exact ⟨by decide, by decide, by decide⟩
  · rw [inputVal_records]
    decide

end PostSecurityFlag
