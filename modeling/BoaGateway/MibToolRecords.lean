import BoaGateway.MibToolSets

/-!
# Records of the mib tool

When an item of `add` or `del` brings a chain to the records it names.
-/

namespace MibTool

open ByteBlocks Texts TextFiles MibTypes MibValue MibText XmlLoad FieldTexts Tokens ArgumentLoops

variable {X : ToolTables} {A : Answers} {s : Store X} {arg : Bytes} {rest : List Bytes} {i : Nat}

section Loop

variable {j cnt : Nat} {entry : Record X.toTables i} {l : List (Record X.toTables i)}

theorem chainAdd_eq : mibChainAdd A j i entry l =
    if A.info j = false then (0, l)
    else if Full (X := X) A i l.length j then (-1, l)
    else if A.add j then ((if A.addTotal j then (l.length : Int) else 0) + 1, l ++ [entry])
    else (0, l) :=
  rfl

theorem chainAdd_full (hinfo : A.info j = true) (hfull : Full (X := X) A i l.length j) :
    mibChainAdd A j i entry l = (-1, l) := by
  rw [chainAdd_eq]
  rw [if_neg (by rw [hinfo]; decide), if_pos hfull]

theorem chainAdd_fails
    (h : A.info j = false ∨ (¬Full (X := X) A i l.length j ∧ A.add j = false)) :
    mibChainAdd A j i entry l = (0, l) := by
  rw [chainAdd_eq]
  by_cases hinfo : A.info j = false
  · rw [if_pos hinfo]
  · obtain ⟨hroom, hadd⟩ := h.resolve_left hinfo
    rw [if_neg hinfo, if_neg hroom, if_neg (by rw [hadd]; decide)]

theorem chainAdd_adds (hinfo : A.info j = true) (hroom : ¬Full (X := X) A i l.length j)
    (hadd : A.add j = true) :
    mibChainAdd A j i entry l =
      ((if A.addTotal j then (l.length : Int) else 0) + 1, l ++ [entry]) := by
  rw [chainAdd_eq]
  rw [if_neg (by rw [hinfo]; decide), if_neg hroom, if_pos hadd]

theorem addSize_ne (b : Bool) (n : Nat) : (if b then (n : Int) else 0) + 1 ≠ 0 := by
  split <;> omega

/-- The loop only adds. -/
theorem addLoop_keeps : l <+: (addLoop A i cnt j l).2 := by
  induction cnt generalizing j l with
  | zero => exact List.prefix_refl l
  | succ cnt ih =>
    rw [addLoop]
    split
    · exact List.prefix_refl l
    · refine List.IsPrefix.trans ?_ ih
      rw [chainAdd_eq]
      split_ifs
      · exact List.prefix_refl l
      · exact List.prefix_refl l
      · exact List.prefix_append l _
      · exact List.prefix_append l _
      · exact List.prefix_refl l

/-- The loop is left with an error and without a record exactly if a call fails behind calls that
find the chain full. -/
theorem addLoop_refused :
    (addLoop A i cnt j l).1 = true ∧ (addLoop A i cnt j l).2 = l ↔
      ∃ k < cnt, (∀ m < k, A.info (j + m) = true ∧ Full (X := X) A i l.length (j + m)) ∧
        (A.info (j + k) = false ∨
          (¬Full (X := X) A i l.length (j + k) ∧ A.add (j + k) = false)) := by
  induction cnt generalizing j l with
  | zero =>
    refine iff_of_false (fun h => ?_) fun ⟨k, hk, _⟩ => absurd hk (Nat.not_lt_zero k)
    cases h.1
  | succ cnt ih =>
    rw [addLoop]
    by_cases hfails : A.info j = false ∨ (¬Full (X := X) A i l.length j ∧ A.add j = false)
    · rw [chainAdd_fails hfails, if_pos rfl]
      exact iff_of_true ⟨rfl, rfl⟩ ⟨0, Nat.succ_pos cnt, nofun, hfails⟩
    · rw [not_or] at hfails
      obtain ⟨hinfo, hadd⟩ := hfails
      rw [Bool.not_eq_false] at hinfo
      by_cases hfull : Full (X := X) A i l.length j
      · rw [chainAdd_full hinfo hfull, if_neg (by simp), ih]
        constructor
        · rintro ⟨k, hk, hbefore, hat⟩
          refine ⟨k + 1, Nat.succ_lt_succ hk, fun m hm => ?_, ?_⟩
          · cases m with
            | zero => exact ⟨hinfo, hfull⟩
            | succ m =>
              have hm' := hbefore m (Nat.lt_of_succ_lt_succ hm)
              rwa [Nat.add_assoc, Nat.add_comm 1 m] at hm'
          · rwa [Nat.add_assoc, Nat.add_comm 1 k] at hat
        · rintro ⟨k, hk, hbefore, hat⟩
          cases k with
          | zero =>
            rcases hat with hat | hat
            · rw [Nat.add_zero, hinfo] at hat
              cases hat
            · exact absurd hfull hat.1
          | succ k =>
            refine ⟨k, Nat.lt_of_succ_lt_succ hk, fun m hm => ?_, ?_⟩
            · have hm' := hbefore (m + 1) (Nat.succ_lt_succ hm)
              rwa [← Nat.add_assoc, Nat.add_right_comm] at hm'
            · rwa [← Nat.add_assoc, Nat.add_right_comm] at hat
      · have hadd : A.add j = true := by
          cases hj : A.add j with
          | true => rfl
          | false => exact absurd ⟨hfull, hj⟩ hadd
        rw [chainAdd_adds hinfo hfull hadd, if_neg (addSize_ne _ _)]
        refine iff_of_false ?_ ?_
        · rintro ⟨-, hsame⟩
          have hkept : l ++ [Block.zeros _] <+:
              (addLoop A i cnt (j + 1) (l ++ [Block.zeros _])).2 := addLoop_keeps
          have hlonger := hkept.length_le
          rw [hsame, List.length_append] at hlonger
          exact absurd hlonger (Nat.not_succ_le_self _)
        · rintro ⟨k, -, hbefore, hat⟩
          cases k with
          | zero =>
            rcases hat with hat | hat
            · rw [Nat.add_zero, hinfo] at hat
              cases hat
            · rw [Nat.add_zero, hadd] at hat
              cases hat.2
          | succ k => exact hfull (hbefore 0 (Nat.succ_pos k)).2

/-- With room and answers every round adds a record. -/
theorem addLoop_adds
    (hanswered : ∀ m < cnt, A.info (j + m) = true ∧ A.addTotal (j + m) = true ∧
      A.add (j + m) = true)
    (hroom : (X.chainEntry i).tableSize = -1 ∨
      (l.length + cnt : Int) ≤ (X.chainEntry i).tableSize ∨ cnt = 0) :
    addLoop A i cnt j l = (false, l ++ List.replicate cnt (Block.zeros _)) := by
  induction cnt generalizing j l with
  | zero => exact congrArg (Prod.mk false) (List.append_nil l).symm
  | succ cnt ih =>
    obtain ⟨hinfo, htotal, hadd⟩ := hanswered 0 (Nat.succ_pos cnt)
    rw [Nat.add_zero] at hinfo htotal hadd
    have hfull : ¬Full (X := X) A i l.length j := by
      rintro ⟨hlimit, hle⟩
      rw [htotal, if_pos rfl] at hle
      rcases hroom with hroom | hroom | hroom
      · exact hlimit hroom
      · omega
      · cases hroom
    rw [addLoop, chainAdd_adds hinfo hfull hadd]
    dsimp only
    rw [if_neg (addSize_ne _ _), ih]
    · rw [List.append_assoc, List.replicate_succ, List.singleton_append]
    · intro m hm
      have hm' := hanswered (m + 1) (Nat.succ_lt_succ hm)
      rwa [← Nat.add_assoc, Nat.add_right_comm] at hm'
    · rw [List.length_append, List.length_singleton]
      rcases hroom with hroom | hroom | hroom
      · exact Or.inl hroom
      · refine Or.inr (Or.inl ?_)
        omega
      · cases hroom

end Loop

theorem addByName_eq (hchain : chainIndex X (nameOf arg) = some i) :
    mibChainAddByName A (mapped arg) s =
      let r := addLoop A i (addRounds A (pathOf arg) (s.chains i).length) 0 (s.chains i)
      if r.1 then some (.unknown, s.setChain i r.2)
      else if Endless A (pathOf arg) (s.chains i).length then none
      else some ((X.chainEntry i).mibType, s.setChain i r.2) := by
  rw [mibChainAddByName, tokens_mapped hchain]
  simp only [hchain]
  rfl

theorem setChain_eq_self {l : List (Record X.toTables i)} :
    s.setChain i l = s ↔ l = s.chains i := by
  rw [Store.ext_iff]
  exact (and_iff_right rfl).trans Function.update_eq_self_iff

theorem adds_unique {w w' : Nat} (h : Adds X A arg s i w) (h' : Adds X A arg s i w') : w' = w :=
  Option.some.inj (h'.wanted.symm.trans h.wanted)

/-- The rounds of the loop are the records that are missing. -/
theorem adds_rounds {w : Nat} (h : Adds X A arg s i w) :
    addRounds A (pathOf arg) (s.chains i).length = w - (s.chains i).length := by
  have hwanted := h.wanted
  rw [addRounds, h.total.1, if_pos rfl]
  cases hpath : pathOf arg with
  | nil =>
    rw [hpath] at hwanted
    have hw : (s.chains i).length + 1 = w := Option.some.inj hwanted
    rw [addNumber, h.total.1, if_pos rfl]
    omega
  | cons text more =>
    rw [hpath] at hwanted
    obtain ⟨n, hn, hw⟩ := Option.map_eq_some_iff.mp hwanted
    rw [addNumber, (recordNumber_read hn).1]
    omega

/-- A chain is brought to the records that are asked for. -/
theorem adds_loop {w : Nat} (h : Adds X A arg s i w) :
    addLoop A i (addRounds A (pathOf arg) (s.chains i).length) 0 (s.chains i) =
      (false, s.chains i ++ List.replicate (w - (s.chains i).length) (Block.zeros _)) := by
  rw [adds_rounds h]
  apply addLoop_adds
  · intro m hm
    rw [Nat.zero_add]
    exact h.answered m hm
  · rcases h.room with hroom | hroom | hroom
    · exact Or.inl hroom
    · omega
    · omega

theorem refused_iff {rounds : Nat} {l : List (Record X.toTables i)} :
    (addLoop A i rounds 0 l).1 = true ∧ (addLoop A i rounds 0 l).2 = l ↔
      Refused X A i l.length rounds := by
  rw [addLoop_refused]
  simp only [Nat.zero_add]
  rfl

theorem addDelItem_chain {func : Bytes → Store X → Option (ConfigData × Store X)}
    (hlength : (mapped arg).length < 100) (hchain : chainIndex X (nameOf arg) = some i) :
    addDelItem func (arg :: rest) s =
      (func (mapped arg) s).map fun r => ⟨r.2, r.1 = .unknown, some rest⟩ := by
  rw [addDelItem, resolve_chain hlength hchain]

/-- An item that names no chain is never an error. -/
theorem addDelItem_other {func : Bytes → Store X → Option (ConfigData × Store X)}
    {st : Step Bytes (Store X)} (hchain : chainIndex X (nameOf arg) = none)
    (h : addDelItem func (arg :: rest) s = some st) : st.error = false := by
  by_cases hlength : (mapped arg).length < 100
  · rw [addDelItem] at h
    cases hentry : tableEntry X (nameOf arg) with
    | some e =>
      rw [resolve_table hlength hentry] at h
      cases h
      rfl
    | none =>
      rw [resolve_unknown hlength hentry hchain] at h
      cases h
      rfl
  · rw [addDelItem, resolve_long hlength] at h
    cases h

/-- An item is right about chains only. -/
theorem addDelItem_right {func : Bytes → Store X → Option (ConfigData × Store X)}
    {demands : Store X → Prop} {fits : Nat → Prop}
    (hdemands : ∀ s', demands s' → chainIndex X (nameOf arg) ≠ none)
    (hitem : ∀ i, (mapped arg).length < 100 → chainIndex X (nameOf arg) = some i →
      ((∃ st, addDelItem func (arg :: rest) s = some st ∧ Right demands s st) ↔ fits i)) :
    (∃ st, addDelItem func (arg :: rest) s = some st ∧ Right demands s st) ↔
      (mapped arg).length < 100 ∧ ∃ i, chainIndex X (nameOf arg) = some i ∧ fits i := by
  by_cases hlength : (mapped arg).length < 100
  · rw [and_iff_right hlength]
    cases hchain : chainIndex X (nameOf arg) with
    | some i =>
      rw [hitem i hlength hchain]
      constructor
      · intro h
        exact ⟨i, rfl, h⟩
      · rintro ⟨i', hi', h⟩
        cases hi'
        exact h
    | none =>
      have hnone : ∀ s', ¬demands s' := fun s' hs' => hdemands s' hs' hchain
      simp only [right_nothing hnone]
      refine iff_of_false ?_ fun ⟨i, hi, _⟩ => by cases hi
      rintro ⟨st, hst, -, herror⟩
      rw [addDelItem_other hchain hst] at herror
      cases herror
  · refine iff_of_false ?_ fun h => hlength h.1
    rintro ⟨st, hst, -⟩
    rw [addDelItem, resolve_long hlength] at hst
    cases hst

theorem addItem_chain (hlength : (mapped arg).length < 100)
    (hchain : chainIndex X (nameOf arg) = some i) :
    (∃ st, addDelItem (mibChainAddByName A) (arg :: rest) s = some st ∧
      Right (AddDemands A arg s) s st) ↔
        (((∃ w, Adds X A arg s i w) ∧ ¬Endless A (pathOf arg) (s.chains i).length) ∨
          Refused X A i (s.chains i).length
            (addRounds A (pathOf arg) (s.chains i).length)) := by
  have hdemands : ∀ s', AddDemands A arg s s' → ∃ w, Adds X A arg s i w ∧ s' = s.setChain i
      (s.chains i ++ List.replicate (w - (s.chains i).length) (Block.zeros _)) := by
    rintro s' ⟨i', w, hadds, rfl⟩
    have hsame : i' = i := Option.some.inj (hadds.chain.symm.trans hchain)
    subst hsame
    exact ⟨w, hadds, rfl⟩
  rw [addDelItem_chain hlength hchain, addByName_eq hchain]
  by_cases hadds : ∃ w, Adds X A arg s i w
  · obtain ⟨w, hw⟩ := hadds
    have hnot : ¬Refused X A i (s.chains i).length
        (addRounds A (pathOf arg) (s.chains i).length) := by
      rw [← refused_iff, adds_loop hw]
      rintro ⟨herror, -⟩
      cases herror
    rw [or_iff_left hnot, and_iff_right ⟨w, hw⟩, adds_loop hw]
    dsimp only
    rw [if_neg Bool.false_ne_true]
    by_cases hend : Endless A (pathOf arg) (s.chains i).length
    · rw [if_pos hend]
      exact iff_of_false (fun ⟨st, hst, _⟩ => by cases hst) fun h => h hend
    · rw [if_neg hend]
      refine iff_of_true ⟨_, rfl, ?_⟩ hend
      rw [right_done ⟨i, w, hw, rfl⟩]
      intro s'' hs''
      obtain ⟨w', hw', rfl⟩ := hdemands s'' hs''
      rw [adds_unique hw hw']
  · have hnone : ∀ s', ¬AddDemands A arg s s' := by
      intro s' hs'
      obtain ⟨w, hw, -⟩ := hdemands s' hs'
      exact hadds ⟨w, hw⟩
    simp only [right_nothing hnone, hadds, false_and, false_or]
    rw [step_nothing, ← refused_iff]
    generalize addLoop A i (addRounds A (pathOf arg) (s.chains i).length) 0 (s.chains i) = r
    obtain ⟨failed, l⟩ := r
    cases failed with
    | true =>
      rw [if_pos rfl]
      constructor
      · rintro ⟨r, hr, hstate, -⟩
        cases hr
        exact ⟨rfl, setChain_eq_self.mp hstate⟩
      · rintro ⟨-, hsame⟩
        exact ⟨_, rfl, setChain_eq_self.mpr hsame, rfl⟩
    | false =>
      rw [if_neg Bool.false_ne_true]
      refine iff_of_false ?_ fun h => Bool.false_ne_true h.1
      rintro ⟨r, hr, -, hunknown⟩
      split at hr
      · cases hr
      · cases hr
        exact chainType_known hchain hunknown

/-- An item of `add` does what it is to do, or nothing with an error, exactly if it fits. -/
theorem addItem_right :
    (∃ st, addDelItem (mibChainAddByName A) (arg :: rest) s = some st ∧
      Right (AddDemands A arg s) s st) ↔ AddFits X A arg s := by
  apply addDelItem_right
  · rintro s' ⟨i, w, hadds, -⟩ hnone
    have hsome := hadds.chain
    rw [hnone] at hsome
    cases hsome
  · intro i hlength hchain
    exact addItem_chain hlength hchain

theorem delByName_eq (hchain : chainIndex X (nameOf arg) = some i) :
    mibChainDelByName A (mapped arg) s =
      if A.delete = true ∧ delNumber A (pathOf arg) (s.chains i).length < (s.chains i).length then
        some ((X.chainEntry i).mibType, s.setChain i
          ((s.chains i).eraseIdx (delNumber A (pathOf arg) (s.chains i).length)))
      else some (.unknown, s) := by
  rw [mibChainDelByName, tokens_mapped hchain]
  simp only [hchain]
  rfl

/-- The record that is named is the one that is sent. -/
theorem removes_number {n : Nat} (h : Removes X A arg s i n) :
    delNumber A (pathOf arg) (s.chains i).length = n := by
  have hnamed := h.named
  cases hpath : pathOf arg with
  | nil =>
    rw [hpath] at hnamed
    have hlen : n + 1 = (s.chains i).length := hnamed
    have hsmall := h.range.2
    rw [delNumber, h.answered.1, if_pos rfl, u32OfInt]
    omega
  | cons text more =>
    rw [hpath] at hnamed
    obtain ⟨hread, hsent⟩ := recordNumber_read hnamed
    rw [delNumber, hread, hsent]

theorem delItem_chain (hlength : (mapped arg).length < 100)
    (hchain : chainIndex X (nameOf arg) = some i) :
    (∃ st, addDelItem (mibChainDelByName A) (arg :: rest) s = some st ∧
      Right (DelDemands A arg s) s st) ↔
        ((∃ n, Removes X A arg s i n) ∨ ¬(A.delete = true ∧
          delNumber A (pathOf arg) (s.chains i).length < (s.chains i).length)) := by
  have hdemands : ∀ s', DelDemands A arg s s' →
      ∃ n, Removes X A arg s i n ∧ s' = s.setChain i ((s.chains i).eraseIdx n) := by
    rintro s' ⟨i', n, hremoves, rfl⟩
    have hsame : i' = i := Option.some.inj (hremoves.chain.symm.trans hchain)
    subst hsame
    exact ⟨n, hremoves, rfl⟩
  rw [addDelItem_chain hlength hchain, delByName_eq hchain]
  by_cases hremoves : ∃ n, Removes X A arg s i n
  · obtain ⟨n, hn⟩ := hremoves
    rw [removes_number hn, if_pos ⟨hn.answered.2.1, hn.range.1⟩]
    refine iff_of_true ⟨_, rfl, ?_⟩ (Or.inl ⟨n, hn⟩)
    rw [right_done ⟨i, n, hn, rfl⟩]
    intro s'' hs''
    obtain ⟨n', hn', rfl⟩ := hdemands s'' hs''
    rw [← removes_number hn, ← removes_number hn']
  · have hnone : ∀ s', ¬DelDemands A arg s s' := by
      intro s' hs'
      obtain ⟨n, hn, -⟩ := hdemands s' hs'
      exact hremoves ⟨n, hn⟩
    simp only [right_nothing hnone, hremoves, false_or]
    rw [step_nothing]
    by_cases hsent : A.delete = true ∧
        delNumber A (pathOf arg) (s.chains i).length < (s.chains i).length
    · rw [if_pos hsent]
      refine iff_of_false ?_ fun h => h hsent
      rintro ⟨r, hr, -, hunknown⟩
      cases hr
      exact chainType_known hchain hunknown
    · rw [if_neg hsent]
      exact iff_of_true ⟨_, rfl, rfl, rfl⟩ hsent

/-- An item of `del` does what it is to do, or nothing with an error, exactly if it fits. -/
theorem delItem_right :
    (∃ st, addDelItem (mibChainDelByName A) (arg :: rest) s = some st ∧
      Right (DelDemands A arg s) s st) ↔ DelFits X A arg s := by
  apply addDelItem_right
  · rintro s' ⟨i, n, hremoves, -⟩ hnone
    have hsome := hremoves.chain
    rw [hnone] at hsome
    cases hsome
  · intro i hlength hchain
    exact delItem_chain hlength hchain

end MibTool
