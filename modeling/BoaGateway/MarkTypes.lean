import BoaGateway.SockMarkRuns
import Mathlib.Logic.Function.Basic

/-!
# Types of the marks

A line of the registry keeps the flags of the types it was added with. Each addition sets its
flags; a removal takes its own flags out when its counter is down to zero, and only then.
-/

namespace MarkTypes

open ByteBlocks SockMark SockMarkRuns

/-- The bitwise or of some types. -/
def flags (types : List UInt32) : UInt32 := types.foldr (· ||| ·) 0

theorem flags_perm {types types' : List UInt32} (h : types.Perm types') :
    flags types = flags types' := by
  induction h with
  | nil => rfl
  | cons t _ ih =>
    change t ||| flags _ = t ||| flags _
    rw [ih]
  | swap t u types =>
    change u ||| (t ||| flags types) = t ||| (u ||| flags types)
    rw [← UInt32.or_assoc, ← UInt32.or_assoc, UInt32.or_comm u t]
  | trans _ _ ih₁ ih₂ => exact ih₁.trans ih₂

theorem flags_erase {types : List UInt32} {type : UInt32} (h : type ∈ types) :
    flags types = type ||| flags (types.erase type) :=
  flags_perm (List.perm_cons_erase h)

theorem uint32_eq_iff {a b : UInt32} :
    a = b ↔ ∀ i < 32, a.toBitVec.getLsbD i = b.toBitVec.getLsbD i := by
  rw [← UInt32.toBitVec_inj, BitVec.eq_of_getLsbD_eq_iff]

/-- Taking flags out leaves the others exactly when they share none. -/
theorem without_iff {t r : UInt32} : (t ||| r) &&& ~~~t = r ↔ t &&& r = 0 := by
  rw [uint32_eq_iff, uint32_eq_iff]
  refine forall₂_congr fun i hi => ?_
  simp only [UInt32.toBitVec_and, UInt32.toBitVec_or, UInt32.toBitVec_not, BitVec.getLsbD_and,
    BitVec.getLsbD_or, BitVec.getLsbD_not, hi, decide_true, Bool.true_and]
  cases t.toBitVec.getLsbD i <;> cases r.toBitVec.getLsbD i <;> simp

/-- Leaving flags in is right exactly when the others have them all. -/
theorem covered_iff {t r : UInt32} : t ||| r = r ↔ t &&& ~~~r = 0 := by
  rw [uint32_eq_iff, uint32_eq_iff]
  refine forall₂_congr fun i hi => ?_
  simp only [UInt32.toBitVec_and, UInt32.toBitVec_or, UInt32.toBitVec_not, BitVec.getLsbD_and,
    BitVec.getLsbD_or, BitVec.getLsbD_not, hi, decide_true, Bool.true_and]
  cases t.toBitVec.getLsbD i <;> cases r.toBitVec.getLsbD i <;> simp

/-- The registry, with the types of the additions of each name that are not removed yet. -/
structure Ledger where
  registry : Registry
  types : Bytes → List UInt32

/-- The outstanding types after a call. -/
def Ledger.record (l : Ledger) : Call → Result → Bytes → List UInt32
  | .add name type, .added (some _) => Function.update l.types name (type :: l.types name)
  | .remove name type, .removed _ => Function.update l.types name ((l.types name).erase type)
  | _, _ => l.types

def step (l : Ledger) (call : Call) : Option (Ledger × Result) :=
  (SockMarkRuns.step l.registry call).map fun res => (⟨res.1, l.record call res.2⟩, res.2)

/-- Names are valid, and a type that is removed is outstanding. -/
def Allowed (l : Ledger) : Call → Prop
  | .add name _ => ValidName name
  | .remove name type => ValidName name ∧ type ∈ l.types name

/-- The last removal of a class carries no flag of the other class that is still needed; every
other removal carries only flags that are still needed. -/
def Clean (l : Ledger) : Call → Prop
  | .add _ _ => True
  | .remove name type =>
    let rest := (l.types name).erase type
    if rest.any fun t => isApp t == isApp type then type &&& ~~~flags rest = 0
    else type &&& flags rest = 0

inductive Reach (ok : Ledger → Call → Prop) : Ledger → Prop where
  | empty : Reach ok ⟨⟨[], fun _ _ => 0⟩, fun _ => []⟩
  | step {l l' : Ledger} {call : Call} {result : Result} (h : Reach ok l) (hok : ok l call)
      (hstep : step l call = some (l', result)) : Reach ok l'

/-- The names with outstanding types have lines, and a line has the flags of them all. -/
def TypesStored (l : Ledger) : Prop :=
  ∃ es, readLines l.registry.file = some es ∧ (∀ e ∈ es, e.type = flags (l.types e.ifname)) ∧
    ∀ name, l.types name ≠ [] ↔ ∃ e ∈ es, e.ifname = name

/-- What holds of the lines and the counters between the calls. -/
structure Counts (l : Ledger) (es : List MarkLine) : Prop where
  inv : Inv l.registry es
  adds : ∀ name app, l.registry.adds name app = (l.types name).countP (isApp · == app)

variable {l : Ledger} {es : List MarkLine}

theorem Counts.total (h : Counts l es) (name : Bytes) :
    l.registry.total name = (l.types name).length := by
  rw [Registry.total, h.adds, h.adds]
  induction l.types name with
  | nil => rfl
  | cons t types ih =>
    rw [List.countP_cons, List.countP_cons, List.length_cons, ← ih]
    cases isApp t <;> simp <;> omega

theorem Counts.stored_iff (h : Counts l es) :
    TypesStored l ↔ ∀ e ∈ es, e.type = flags (l.types e.ifname) := by
  have hlines : ∀ name, l.types name ≠ [] ↔ ∃ e ∈ es, e.ifname = name := by
    intro name
    rw [← List.length_pos_iff, ← h.total]
    constructor
    · exact h.inv.covered name
    · rintro ⟨e, he, rfl⟩
      exact (h.inv.lines e he).1.used
  constructor
  · rintro ⟨es', hread, htypes, -⟩
    cases (readLines_inv h.inv).symm.trans hread
    exact htypes
  · intro htypes
    exact ⟨es, readLines_inv h.inv, htypes, hlines⟩

theorem counted_adds {s : Registry} {file name : Bytes} {app : Bool} {n : Nat} (name' : Bytes)
    (app' : Bool) : (s.counted file name app n).adds name' app' =
      if name' = name ∧ app' = app then n else s.adds name' app' := rfl

theorem Counts.adds_cons (h : Counts l es) (file name : Bytes) (type : UInt32) (name' : Bytes)
    (app : Bool) :
    (l.registry.counted file name (isApp type) (l.registry.adds name (isApp type) + 1)).adds
      name' app = (Function.update l.types name (type :: l.types name) name').countP
        (isApp · == app) := by
  rw [counted_adds, h.adds, h.adds]
  by_cases hname : name' = name
  · subst hname
    rw [Function.update_self, List.countP_cons]
    by_cases happ : app = isApp type
    · rw [if_pos ⟨rfl, happ⟩, happ, beq_self_eq_true, if_pos rfl]
    · have hother : (isApp type == app) = false := beq_false_of_ne (Ne.symm happ)
      rw [if_neg (fun hboth => happ hboth.2), hother]
      rfl
  · rw [if_neg (fun hboth => hname hboth.1), Function.update_of_ne hname]

theorem Counts.adds_erase (h : Counts l es) {name : Bytes} {type : UInt32}
    (hmem : type ∈ l.types name) (file name' : Bytes) (app : Bool) :
    (l.registry.counted file name (isApp type) (l.registry.adds name (isApp type) - 1)).adds
      name' app = (Function.update l.types name ((l.types name).erase type) name').countP
        (isApp · == app) := by
  rw [counted_adds, h.adds, h.adds]
  by_cases hname : name' = name
  · subst hname
    rw [Function.update_self, List.countP_erase]
    by_cases happ : app = isApp type
    · rw [if_pos ⟨rfl, happ⟩, happ, if_pos ⟨hmem, beq_self_eq_true _⟩]
    · have hother : ¬(type ∈ l.types name' ∧ (isApp type == app) = true) :=
        fun hboth => happ (eq_of_beq hboth.2).symm
      rw [if_neg (fun hboth => happ hboth.2), if_neg hother, Nat.sub_zero]
  · rw [if_neg (fun hboth => hname hboth.1), Function.update_of_ne hname]

theorem incLine_type (type : UInt32) (e : MarkLine) : (incLine type e).type = e.type ||| type := by
  rw [incLine]
  split <;> rfl

/-- The flags go when the counter of their class is down to zero. -/
theorem decLine_type (h : Counts l es) {e : MarkLine} (he : e ∈ es) {type : UInt32}
    (hmem : type ∈ l.types e.ifname) :
    (decLine type e).type =
      if ((l.types e.ifname).erase type).any fun t => isApp t == isApp type then e.type
      else e.type &&& ~~~type := by
  have hline := (h.inv.lines e he).1
  have hcount := h.adds e.ifname (isApp type)
  have hone : ((l.types e.ifname).erase type).countP (isApp · == isApp type) + 1 =
      l.registry.adds e.ifname (isApp type) := by
    rw [hcount, (List.perm_cons_erase hmem).countP_eq, List.countP_cons, beq_self_eq_true,
      if_pos rfl]
  have hany : (((l.types e.ifname).erase type).any fun t => isApp t == isApp type) = true ↔
      1 < l.registry.adds e.ifname (isApp type) := by
    rw [← hone, List.any_eq_true, ← List.countP_pos_iff]
    omega
  have hrefcnt := hline.refcnt
  have hrefcnt2 := hline.refcnt2
  rw [decLine]
  by_cases happ : isApp type = true
  · rw [happ] at hany ⊢
    rw [if_pos rfl]
    dsimp only
    by_cases hleft : 1 < l.registry.adds e.ifname true
    · rw [if_pos (hany.mpr hleft), if_neg]
      split <;> omega
    · rw [if_neg (fun htrue => hleft (hany.mp htrue)), if_pos]
      split <;> omega
  · have happ : isApp type = false := Bool.eq_false_of_not_eq_true happ
    rw [happ] at hany ⊢
    rw [if_neg Bool.false_ne_true]
    dsimp only
    by_cases hleft : 1 < l.registry.adds e.ifname false
    · rw [if_pos (hany.mpr hleft), if_neg]
      split <;> omega
    · rw [if_neg (fun htrue => hleft (hany.mp htrue)), if_pos]
      split <;> omega

/-- What an addition does. -/
theorem Counts.add (h : Counts l es) (htypes : ∀ e ∈ es, e.type = flags (l.types e.ifname))
    {name : Bytes} (hname : ValidName name) (type : UInt32)
    (hbound : l.registry.total name + 1 < 2 ^ 31) :
    ∃ l' result es', step l (.add name type) = some (l', result) ∧ Counts l' es' ∧
      ∀ e ∈ es', e.type = flags (l'.types e.ifname) := by
  by_cases hnew : ∀ e ∈ es, e.ifname ≠ name
  · rcases h.inv.create hname hnew type with ⟨k, hadd, hinv⟩ | ⟨hadd, -⟩
    · have hnone : l.types name = [] := by
        rw [← List.length_eq_zero_iff, ← h.total]
        exact h.inv.total_new hnew
      refine ⟨⟨_, Function.update l.types name (type :: l.types name)⟩, .added (some (markOf k)), _,
        ?_, ⟨hinv, h.adds_cons _ name type⟩, ?_⟩
      · rw [step, SockMarkRuns.step, hadd]
        rfl
      · intro e he
        rcases List.mem_append.mp he with he | he
        · change e.type = flags (Function.update l.types name _ e.ifname)
          rw [Function.update_of_ne (hnew e he)]
          exact htypes e he
        · rw [List.mem_singleton.mp he]
          change type = flags (Function.update l.types name _ name)
          rw [Function.update_self, hnone]
          exact (UInt32.or_zero (a := type)).symm
    · refine ⟨l, .added none, es, ?_, h, htypes⟩
      rw [step, SockMarkRuns.step, hadd, Option.map_some, Option.map_some]
      exact congrArg (fun s => some ((⟨s, l.types⟩ : Ledger), Result.added none)) counted_same
  · push Not at hnew
    obtain ⟨e, he, rfl⟩ := hnew
    obtain ⟨hadd, hinv⟩ := h.inv.inc he hbound type
    refine ⟨⟨_, Function.update l.types e.ifname (type :: l.types e.ifname)⟩,
      .added (some e.sockmark), _, ?_, ⟨hinv, h.adds_cons _ e.ifname type⟩, ?_⟩
    · rw [step, SockMarkRuns.step, hadd]
      rfl
    · intro e' he'
      change e'.type = flags (Function.update l.types e.ifname _ e'.ifname)
      obtain ⟨e₁, he₁, ⟨hsame, rfl⟩ | ⟨hother, rfl⟩⟩ := mem_updated he'
      · rw [incLine_type, incLine_ifname, hsame, Function.update_self, htypes e₁ he₁, hsame,
          UInt32.or_comm]
        rfl
      · rw [Function.update_of_ne hother]
        exact htypes e' he₁

/-- A removal leaves the right flags exactly when it is clean. -/
theorem Counts.remove (h : Counts l es) (htypes : ∀ e ∈ es, e.type = flags (l.types e.ifname))
    {name : Bytes} {type : UInt32} (hmem : type ∈ l.types name) :
    ∃ l' result es', step l (.remove name type) = some (l', result) ∧ Counts l' es' ∧
      ((∀ e ∈ es', e.type = flags (l'.types e.ifname)) ↔ Clean l (.remove name type)) := by
  have hone : 0 < l.registry.adds name (isApp type) := by
    rw [h.adds, List.countP_pos_iff]
    exact ⟨type, hmem, beq_self_eq_true _⟩
  have hused : 0 < l.registry.total name := by
    rw [h.total]
    exact List.length_pos_of_mem hmem
  obtain ⟨e, he, rfl⟩ := h.inv.covered name hused
  obtain ⟨hremove, hinv⟩ := h.inv.dec he hone
  have hcounts : Counts ⟨l.registry.afterRemove es type e.ifname,
      Function.update l.types e.ifname ((l.types e.ifname).erase type)⟩
      (released type e.ifname es) := ⟨hinv, h.adds_erase hmem _⟩
  refine ⟨_, .removed (if (decLine type e).isUnused then 0 else 1), _, ?_, hcounts, ?_⟩
  · rw [step, SockMarkRuns.step, hremove]
    rfl
  have hflags := flags_erase hmem
  rw [← htypes e he] at hflags
  -- the line of the name is the only one that the removal touches
  have hline : (∀ e' ∈ released type e.ifname es, e'.type =
      flags (Function.update l.types e.ifname ((l.types e.ifname).erase type) e'.ifname)) ↔
        ((l.types e.ifname).erase type ≠ [] →
          (decLine type e).type = flags ((l.types e.ifname).erase type)) := by
    have hleft : (l.types e.ifname).erase type ≠ [] ↔ (decLine type e).isUnused = false := by
      rw [← List.length_pos_iff, ← Bool.not_eq_true, h.inv.unused_iff he hone]
      have htotal := hcounts.total e.ifname
      dsimp only at htotal
      rw [Function.update_self] at htotal
      omega
    rw [hleft]
    constructor
    · intro hall hkept
      have hmem' := mem_updated_of_mem (decLine type) e.ifname he
      rw [if_pos rfl] at hmem'
      have hin : decLine type e ∈ released type e.ifname es :=
        List.mem_filter.mpr ⟨hmem', by rw [hkept, Bool.and_false, Bool.not_false]⟩
      have htype := hall _ hin
      rwa [decLine_ifname, Function.update_self] at htype
    · intro hdec e' he'
      obtain ⟨hmem', hkept⟩ := List.mem_filter.mp he'
      obtain ⟨e₁, he₁, ⟨hsame, rfl⟩ | ⟨hother, rfl⟩⟩ := mem_updated hmem'
      · obtain rfl := h.inv.unique he₁ he hsame
        rw [decLine_ifname, beq_self_eq_true, Bool.true_and, Bool.not_eq_true'] at hkept
        rw [decLine_ifname, Function.update_self]
        exact hdec hkept
      · rw [Function.update_of_ne hother]
        exact htypes e' he₁
  refine hline.trans ?_
  rw [decLine_type h he hmem, Clean]
  split
  · rename_i hany
    have hne : (l.types e.ifname).erase type ≠ [] := by
      intro hnil
      rw [hnil] at hany
      cases hany
    rw [forall_prop_of_true hne, hflags]
    exact covered_iff
  · rw [hflags, without_iff]
    constructor
    · intro himp
      by_cases hnil : (l.types e.ifname).erase type = []
      · rw [hnil]
        exact UInt32.and_zero
      · exact himp hnil
    · exact fun hzero _ => hzero

theorem counts_empty : Counts ⟨⟨[], fun _ _ => 0⟩, fun _ => []⟩ [] := ⟨Inv.empty, fun _ _ => rfl⟩

theorem Counts.step (h : Counts l es) (htypes : ∀ e ∈ es, e.type = flags (l.types e.ifname))
    {call : Call} (hok : Allowed l call) (hbound : Bounded l.registry call) :
    ∃ l' result es', step l call = some (l', result) ∧ Counts l' es' ∧
      ((∀ e ∈ es', e.type = flags (l'.types e.ifname)) ↔ Clean l call) := by
  cases call with
  | add name type =>
    obtain ⟨l', result, es', hstep, hcounts, htypes'⟩ := h.add htypes hok type hbound
    exact ⟨l', result, es', hstep, hcounts, iff_of_true htypes' trivial⟩
  | remove name type => exact h.remove htypes hok.2

theorem reach_counts
    (h : Reach (fun l call => Allowed l call ∧ Bounded l.registry call ∧ Clean l call) l) :
    ∃ es, Counts l es ∧ ∀ e ∈ es, e.type = flags (l.types e.ifname) := by
  induction h with
  | empty => exact ⟨[], counts_empty, fun e he => absurd he List.not_mem_nil⟩
  | step _ hok hstep ih =>
    obtain ⟨es, hcounts, htypes⟩ := ih
    obtain ⟨l', result, es', hnext, hcounts', hiff⟩ := hcounts.step htypes hok.1 hok.2.1
    cases hstep.symm.trans hnext
    exact ⟨es', hcounts', hiff.mpr hok.2.2⟩

/-- In a run of clean calls every line has the flags of the outstanding types, and keeps them in
the next call exactly when that is clean. -/
theorem types_stored
    (h : Reach (fun l call => Allowed l call ∧ Bounded l.registry call ∧ Clean l call) l) :
    TypesStored l ∧ ∀ call, Allowed l call → Bounded l.registry call → ∃ l' result,
      step l call = some (l', result) ∧ (TypesStored l' ↔ Clean l call) := by
  obtain ⟨es, hcounts, htypes⟩ := reach_counts h
  refine ⟨hcounts.stored_iff.mpr htypes, fun call hok hbound => ?_⟩
  obtain ⟨l', result, es', hstep, hcounts', hiff⟩ := hcounts.step htypes hok hbound
  exact ⟨l', result, hstep, hcounts'.stored_iff.trans hiff⟩

/-- The ledger after one addition. -/
def oneAdded : Ledger where
  registry := Registry.counted ⟨[], fun _ _ => 0⟩ (fileText [countLine 1]) loopName false 1
  types := Function.update (fun _ => []) loopName [1]

theorem oneAdded_step : step ⟨⟨[], fun _ _ => 0⟩, fun _ => []⟩ (.add loopName 1) =
    some (oneAdded, .added (some 8192)) := by
  rw [step, SockMarkRuns.step, add_first]
  rfl

def typeLine (refcnt2 : Int) (type : UInt32) : MarkLine :=
  { countLine 1 with refcnt2 := refcnt2, type := type }

/-- One more addition, with the flags of both classes. -/
def bothAdded : Ledger where
  registry := oneAdded.registry.counted (fileText [typeLine 1 3]) loopName true 1
  types := Function.update oneAdded.types loopName [3, 1]

/-- The second addition is removed. -/
def bothRemoved : Ledger where
  registry := bothAdded.registry.counted (fileText [typeLine 0 0]) loopName true 0
  types := Function.update bothAdded.types loopName [1]

/-- The removal takes the flag of the first addition along. -/
theorem flag_lost :
    ¬∀ l, Reach (fun l call => Allowed l call ∧ Bounded l.registry call) l → TypesStored l := by
  intro hclaim
  have hadd : rtkWanSockmarkAdd (fileText [countLine 1]) loopName 3 =
      some (fileText [typeLine 1 3], some 8192) := by decide +kernel
  have hremove : rtkWanSockmarkRemove (fileText [typeLine 1 3]) loopName 3 =
      some (fileText [typeLine 0 0], 1) := by decide +kernel
  have hstep₂ : step oneAdded (.add loopName 3) = some (bothAdded, .added (some 8192)) := by
    have hfile : oneAdded.registry.file = fileText [countLine 1] := rfl
    rw [step, SockMarkRuns.step, hfile, hadd]
    rfl
  have hstep₃ : step bothAdded (.remove loopName 3) = some (bothRemoved, .removed 1) := by
    have hfile : bothAdded.registry.file = fileText [typeLine 1 3] := rfl
    rw [step, SockMarkRuns.step, hfile, hremove]
    rfl
  have hok₁ : Allowed ⟨⟨[], fun _ _ => 0⟩, fun _ => []⟩ (.add loopName 1) := loopName_valid
  have hbound₁ : Bounded ⟨[], fun _ _ => 0⟩ (.add loopName 1) := Nat.one_lt_two_pow (by decide)
  have hok₂ : Allowed oneAdded (.add loopName 3) := loopName_valid
  have hbound₂ : Bounded oneAdded.registry (.add loopName 3) := by
    change oneAdded.registry.total loopName + 1 < 2 ^ 31
    decide
  have hok₃ : Allowed bothAdded (.remove loopName 3) := ⟨loopName_valid, List.mem_cons_self⟩
  have hreach₁ : Reach (fun l call => Allowed l call ∧ Bounded l.registry call) oneAdded :=
    .step .empty ⟨hok₁, hbound₁⟩ oneAdded_step
  have hreach₂ := hreach₁.step ⟨hok₂, hbound₂⟩ hstep₂
  have hreach := hreach₂.step ⟨hok₃, trivial⟩ hstep₃
  obtain ⟨es, hread, htypes, -⟩ := hclaim _ hreach
  have hprintable : ∀ e ∈ [typeLine 0 0], Printable e := by
    intro e he
    rw [List.mem_singleton.mp he]
    exact ⟨loopName_valid, by decide, ⟨by decide, by decide⟩, ⟨by decide, by decide⟩,
      ⟨by decide, by decide⟩⟩
  cases (readLines_text hprintable).symm.trans hread
  exact absurd (htypes _ List.mem_cons_self) (by decide)

def wanmarkTypeSys : UInt32 := 1

/-- A type that the callers give. -/
def Plain (type : UInt32) : Prop := type = wanmarkTypeSys ∨ type = wanmarkTypeApp

theorem flags_covers {types : List UInt32} {type : UInt32} (h : type ∈ types) :
    type &&& ~~~flags types = 0 := by
  rw [← covered_iff, flags_erase h, ← UInt32.or_assoc, UInt32.or_self]

theorem flags_apart {types : List UInt32} {type : UInt32} (h : ∀ t ∈ types, type &&& t = 0) :
    type &&& flags types = 0 := by
  induction types with
  | nil => exact UInt32.and_zero
  | cons t types ih =>
    have hhead := h t List.mem_cons_self
    have hrest := ih fun u hu => h u (List.mem_cons_of_mem t hu)
    change type &&& (t ||| flags types) = 0
    rw [uint32_eq_iff] at hhead hrest ⊢
    intro i hi
    have hbit := hhead i hi
    have hbits := hrest i hi
    simp only [UInt32.toBitVec_and, UInt32.toBitVec_or, BitVec.getLsbD_and, BitVec.getLsbD_or,
      Bool.and_or_distrib_left] at hbit hbits ⊢
    rw [hbit, hbits, Bool.or_self]

theorem clean_plain {name : Bytes} {type : UInt32} (hplain : ∀ t ∈ l.types name, Plain t)
    (hmem : type ∈ l.types name) : Clean l (.remove name type) := by
  have hrest : ∀ t ∈ (l.types name).erase type, Plain t := fun t ht =>
    hplain t (List.mem_of_mem_erase ht)
  have happs : isApp wanmarkTypeSys = false ∧ isApp wanmarkTypeApp = true := by decide
  rw [Clean]
  split
  · rename_i hany
    obtain ⟨t, ht, hclass⟩ := List.any_eq_true.mp hany
    have hsame : t = type := by
      rcases hrest t ht with rfl | rfl <;> rcases hplain type hmem with rfl | rfl
      · rfl
      · rw [happs.1, happs.2] at hclass
        cases hclass
      · rw [happs.1, happs.2] at hclass
        cases hclass
      · rfl
    exact flags_covers (hsame ▸ ht)
  · rename_i hnone
    refine flags_apart fun t ht => ?_
    have hclass : (isApp t == isApp type) = false := by
      rw [← Bool.not_eq_true]
      exact fun hsame => hnone (List.any_eq_true.mpr ⟨t, ht, hsame⟩)
    rcases hrest t ht with rfl | rfl <;> rcases hplain type hmem with rfl | rfl
    · rw [beq_self_eq_true] at hclass
      cases hclass
    · decide
    · decide
    · rw [beq_self_eq_true] at hclass
      cases hclass

def Call.type : Call → UInt32
  | .add _ type | .remove _ type => type

theorem record_plain {call : Call} {result : Result} (h : ∀ name, ∀ t ∈ l.types name, Plain t)
    (hcall : Plain (Call.type call)) (name : Bytes) : ∀ t ∈ l.record call result name, Plain t := by
  cases call with
  | add name' type =>
    cases result with
    | removed ret => exact h name
    | added mark =>
      cases mark with
      | none => exact h name
      | some mark =>
        change ∀ t ∈ Function.update l.types name' (type :: l.types name') name, Plain t
        by_cases hname : name = name'
        · rw [hname, Function.update_self]
          exact List.forall_mem_cons.mpr ⟨hcall, h name'⟩
        · rw [Function.update_of_ne hname]
          exact h name
  | remove name' type =>
    cases result with
    | added mark => exact h name
    | removed ret =>
      change ∀ t ∈ Function.update l.types name' ((l.types name').erase type) name, Plain t
      by_cases hname : name = name'
      · rw [hname, Function.update_self]
        exact fun t ht => h name' t (List.mem_of_mem_erase ht)
      · rw [Function.update_of_ne hname]
        exact h name

/-- The callers give the type of one class at a time, and then every line has the flags of the
outstanding types. -/
theorem types_stored_plain (h : Reach (fun l call => Allowed l call ∧ Bounded l.registry call ∧
    Plain (Call.type call)) l) : TypesStored l := by
  have hclean : Reach (fun l call => Allowed l call ∧ Bounded l.registry call ∧ Clean l call) l ∧
      ∀ name, ∀ t ∈ l.types name, Plain t := by
    induction h with
    | empty => exact ⟨.empty, fun name t ht => absurd ht List.not_mem_nil⟩
    | @step l l' call result _ hok hstep ih =>
      obtain ⟨hreach, hplain⟩ := ih
      obtain ⟨hallowed, hbound, hcall⟩ := hok
      have hclean : Clean l call := by
        cases call with
        | add name type => trivial
        | remove name type => exact clean_plain (hplain name) hallowed.2
      refine ⟨hreach.step ⟨hallowed, hbound, hclean⟩ hstep, ?_⟩
      obtain ⟨res, -, heq⟩ := Option.map_eq_some_iff.mp hstep
      cases heq
      exact record_plain hplain hcall
  exact (types_stored hclean.1).1

/-- An addition of the other class. -/
def appAdded : Ledger where
  registry := oneAdded.registry.counted (fileText [typeLine 1 3]) loopName true 1
  types := Function.update oneAdded.types loopName [2, 1]

/-- The first addition is removed. -/
def appLeft : Ledger where
  registry := appAdded.registry.counted
    (fileText [{ typeLine 1 2 with refcnt := 0 }]) loopName false 0
  types := Function.update appAdded.types loopName [2]

theorem types_stored_plain_left : TypesStored appLeft := by
  have hadd : rtkWanSockmarkAdd (fileText [countLine 1]) loopName 2 =
      some (fileText [typeLine 1 3], some 8192) := by decide +kernel
  have hremove : rtkWanSockmarkRemove (fileText [typeLine 1 3]) loopName 1 =
      some (fileText [{ typeLine 1 2 with refcnt := 0 }], 1) := by decide +kernel
  have hstep₂ : step oneAdded (.add loopName 2) = some (appAdded, .added (some 8192)) := by
    have hfile : oneAdded.registry.file = fileText [countLine 1] := rfl
    rw [step, SockMarkRuns.step, hfile, hadd]
    rfl
  have hstep₃ : step appAdded (.remove loopName 1) = some (appLeft, .removed 1) := by
    have hfile : appAdded.registry.file = fileText [typeLine 1 3] := rfl
    rw [step, SockMarkRuns.step, hfile, hremove]
    rfl
  have hok₁ : Allowed ⟨⟨[], fun _ _ => 0⟩, fun _ => []⟩ (.add loopName 1) := loopName_valid
  have hbound₁ : Bounded ⟨[], fun _ _ => 0⟩ (.add loopName 1) := Nat.one_lt_two_pow (by decide)
  have hok₂ : Allowed oneAdded (.add loopName 2) := loopName_valid
  have hbound₂ : Bounded oneAdded.registry (.add loopName 2) := by
    change oneAdded.registry.total loopName + 1 < 2 ^ 31
    decide
  have hok₃ : Allowed appAdded (.remove loopName 1) :=
    ⟨loopName_valid, List.mem_cons_of_mem 2 List.mem_cons_self⟩
  have hsys : ∀ name, Plain (Call.type (.add name 1)) ∧ Plain (Call.type (.remove name 1)) :=
    fun name => ⟨Or.inl rfl, Or.inl rfl⟩
  have happ : Plain (Call.type (.add loopName 2)) := Or.inr rfl
  have hreach₁ : Reach (fun l call => Allowed l call ∧ Bounded l.registry call ∧
      Plain (Call.type call)) oneAdded :=
    .step .empty ⟨hok₁, hbound₁, (hsys loopName).1⟩ oneAdded_step
  have hreach₂ := hreach₁.step ⟨hok₂, hbound₂, happ⟩ hstep₂
  exact types_stored_plain (hreach₂.step ⟨hok₃, trivial, (hsys loopName).2⟩ hstep₃)

end MarkTypes
