import BoaGateway.SockMark

/-!
# Runs of the mark registry

What the file holds after any sequence of additions and removals, as long as the references of
no interface exceed an `int`.
-/

namespace SockMarkRuns

open ByteBlocks MibValue TextFiles Texts SockMark

/-- A name of an interface. -/
structure ValidName (name : Bytes) : Prop where
  nonempty : name ≠ []
  short : name.length < 64
  word : ∀ c ∈ name, isSpace c = false

structure IsInt (z : Int) : Prop where
  low : -(2 ^ 31) ≤ z
  high : z < 2 ^ 31

/-- A line whose values fit into the types of the source. -/
structure Printable (e : MarkLine) : Prop where
  name : ValidName e.ifname
  sockmark : e.sockmark < 2 ^ 32
  tblid : IsInt e.tblid
  refcnt : IsInt e.refcnt
  refcnt2 : IsInt e.refcnt2

variable {e : MarkLine}

theorem scanFields_text (he : Printable e) : scanFields e.text = some e := by
  obtain ⟨⟨hne, -, hword⟩, hmark, htblid, hrefcnt, hrefcnt2⟩ := he
  have htype : e.type.toNat < 2 ^ 32 := e.type.toNat_lt
  have hblank : isSpace 32 = true := by decide
  have hline : isSpace newline = true := by decide
  have hmarkLit : ascii " sockmark=0x" = 32 :: ascii "sockmark=0x" := rfl
  have htblidLit : ascii " tblid=" = 32 :: ascii "tblid=" := rfl
  have hrefcntLit : ascii " refcnt=" = 32 :: ascii "refcnt=" := rfl
  have hrefcnt2Lit : ascii " refcnt2=" = 32 :: ascii "refcnt2=" := rfl
  have htypeLit : ascii " type=0x" = 32 :: ascii "type=0x" := rfl
  have hskip : ∀ (w s : Bytes), skipSpace (w ++ s) = w ++ s → skipSpace (32 :: (w ++ s)) = w ++ s :=
    fun w s h => (skipSpace_blank hblank _).trans h
  rw [MarkLine.text, scanFields, hmarkLit, htblidLit, hrefcntLit, hrefcnt2Lit, htypeLit]
  simp only [List.cons_append, scanText_append, Option.bind_eq_bind, Option.bind_some,
    scanString_word hne hword hblank]
  rw [hskip _ _ rfl, scanText_append, Option.bind_some, scanHex_numeral hmark hblank,
    Option.bind_some]
  dsimp only
  rw [hskip _ _ rfl, scanText_append, Option.bind_some,
    scanInt_intText htblid.low htblid.high hblank, Option.bind_some]
  dsimp only
  rw [hskip _ _ rfl, scanText_append, Option.bind_some,
    scanInt_intText hrefcnt.low hrefcnt.high hblank, Option.bind_some]
  dsimp only
  rw [hskip _ _ rfl, scanText_append, Option.bind_some,
    scanInt_intText hrefcnt2.low hrefcnt2.high hblank, Option.bind_some]
  dsimp only
  rw [hskip _ _ rfl, scanText_append, Option.bind_some, scanHex_numeral htype hline,
    Option.bind_some]
  simp

theorem scanLine_text (he : Printable e) : scanLine e.text = some (some e) := by
  have hlit : ascii " sockmark=0x" = 32 :: ascii "sockmark=0x" := rfl
  have hfits : nameFits e.text = true := by
    rw [nameFits, MarkLine.text, scanText_append, Option.bind_some, hlit, List.cons_append,
      scanString_word he.name.nonempty he.name.word (by decide)]
    exact decide_eq_true he.name.short
  rw [scanLine, if_pos hfits, scanFields_text he]

/-- A line without its line end. -/
def lineBody (e : MarkLine) : Bytes :=
  ascii "ifname=" ++ (e.ifname ++ (ascii " sockmark=0x" ++ (numeral 16 e.sockmark ++
    (ascii " tblid=" ++ (intText e.tblid ++ (ascii " refcnt=" ++ (intText e.refcnt ++
      (ascii " refcnt2=" ++ (intText e.refcnt2 ++ (ascii " type=0x" ++
        numeral 16 e.type.toNat))))))))))

theorem text_eq (e : MarkLine) : e.text = lineBody e ++ [newline] := by
  simp [MarkLine.text, lineBody]

theorem newline_not_mem {s : Bytes} (hs : ∀ c ∈ s, isSpace c = false) : newline ∉ s :=
  fun h => absurd (hs newline h) (by decide)

theorem newline_lineBody (he : Printable e) : newline ∉ lineBody e := by
  have hname := newline_not_mem he.name.word
  have hhex : ∀ n, newline ∉ numeral 16 n := fun n =>
    newline_not_mem (numeral_bytes (by decide) (by decide) n)
  have hint : ∀ z, newline ∉ intText z := fun z => newline_not_mem (intText_bytes z)
  have hlits : newline ∉ ascii "ifname=" ∧ newline ∉ ascii " sockmark=0x" ∧
      newline ∉ ascii " tblid=" ∧ newline ∉ ascii " refcnt=" ∧ newline ∉ ascii " refcnt2=" ∧
      newline ∉ ascii " type=0x" := by
    decide
  simp only [lineBody, List.mem_append, not_or]
  exact ⟨hlits.1, hname, hlits.2.1, hhex _, hlits.2.2.1, hint _, hlits.2.2.2.1, hint _,
    hlits.2.2.2.2.1, hint _, hlits.2.2.2.2.2, hhex _⟩

theorem lineBody_length (he : Printable e) : (lineBody e).length < 1022 := by
  have hmark : (numeral 16 e.sockmark).length ≤ 8 :=
    numeral_length (by decide) (by decide) he.sockmark
  have htype : (numeral 16 e.type.toNat).length ≤ 8 :=
    numeral_length (by decide) (by decide) e.type.toNat_lt
  have htblid := intText_length he.tblid.low he.tblid.high
  have hrefcnt := intText_length he.refcnt.low he.refcnt.high
  have hrefcnt2 := intText_length he.refcnt2.low he.refcnt2.high
  have hname := he.name.short
  have hlits : (ascii "ifname=").length = 7 ∧ (ascii " sockmark=0x").length = 12 ∧
      (ascii " tblid=").length = 7 ∧ (ascii " refcnt=").length = 8 ∧
      (ascii " refcnt2=").length = 9 ∧ (ascii " type=0x").length = 8 := by
    decide
  simp only [lineBody, List.length_append]
  omega

/-- The text of a file with these lines. -/
def fileText (es : List MarkLine) : Bytes := es.flatMap MarkLine.text

theorem fileLines_text {es : List MarkLine} (hes : ∀ e ∈ es, Printable e) :
    fileLines (fileText es) = es.map MarkLine.text := by
  induction es with
  | nil => rfl
  | cons e es ih =>
    have he := hes e List.mem_cons_self
    have hline := fgetsLines_line (newline_lineBody he) []
      (by rw [List.nil_append]; exact lineBody_length he) (fileText es)
    rw [List.nil_append, ← text_eq] at hline
    have hfile : fileText (e :: es) = lineBody e ++ newline :: fileText es := by
      rw [fileText, List.flatMap_cons, ← fileText, text_eq, List.append_assoc]
      rfl
    rw [fileLines, hfile, hline, ← fileLines, ih fun e' h => hes e' (List.mem_cons_of_mem e h)]
    rfl

theorem readLines_text {es : List MarkLine} (hes : ∀ e ∈ es, Printable e) :
    readLines (fileText es) = some es := by
  rw [readLines, fileLines_text hes]
  induction es with
  | nil => rfl
  | cons e es ih =>
    rw [List.map_cons, List.mapM_cons, scanLine_text (hes e List.mem_cons_self),
      ih fun e' h => hes e' (List.mem_cons_of_mem e h)]
    rfl

theorem rtkWanSockmarkCheck_text {es : List MarkLine} (hes : ∀ e ∈ es, Printable e) {mark : Nat}
    (hmark : mark &&& sockMarkWanIndexBitMask ≠ 0) :
    rtkWanSockmarkCheck (fileText es) mark = some (es.any fun e => mark = e.sockmark) := by
  rw [rtkWanSockmarkCheck, if_neg hmark, fileLines_text hes]
  induction es with
  | nil => rfl
  | cons e es ih =>
    rw [List.map_cons, checkLines, scanLine_text (hes e List.mem_cons_self),
      ih fun e' h => hes e' (List.mem_cons_of_mem e h), List.any_cons]
    dsimp only
    split <;> rename_i h <;> simp [h]

/-- The mark with a number from 1 to 63. -/
def markOf (k : Nat) : Nat := k <<< sockMarkWanIndexStart

theorem markOf_facts {k : Nat} (hpos : 0 < k) (hle : k ≤ 63) :
    markOf k &&& sockMarkWanIndexBitMask = markOf k ∧ markOf k ≠ 0 ∧
      markOf k >>> sockMarkWanIndexStart = k ∧ markOf k < 2 ^ 32 ∧
      markOf k + 1 <<< sockMarkWanIndexStart = markOf (k + 1) := by
  have hall : ∀ k : Fin 64, markOf k &&& sockMarkWanIndexBitMask = markOf k ∧
      (0 < k.val → markOf k ≠ 0) ∧ markOf k >>> sockMarkWanIndexStart = k ∧
      markOf k < 2 ^ 32 ∧ markOf k + 1 <<< sockMarkWanIndexStart = markOf (k + 1) := by
    decide
  obtain ⟨hmask, hzero, hshift, hlt, hnext⟩ := hall ⟨k, Nat.lt_succ_of_le hle⟩
  exact ⟨hmask, hzero hpos, hshift, hlt, hnext⟩

/-- The first mark that no line has, or none if all have one. -/
theorem availableFrom_text {es : List MarkLine} (hes : ∀ e ∈ es, Printable e) {n k : Nat}
    (hk : 0 < k) (hn : k + n = 64) :
    (∃ j, k ≤ j ∧ j ≤ 63 ∧ availableFrom (fileText es) n (markOf k) = some (markOf j) ∧
        ∀ e ∈ es, e.sockmark ≠ markOf j) ∨
      (availableFrom (fileText es) n (markOf k) = some 0 ∧
        ∀ j, k ≤ j → j ≤ 63 → ∃ e ∈ es, e.sockmark = markOf j) := by
  induction n generalizing k with
  | zero => exact Or.inr ⟨rfl, fun j hlow hhigh => by omega⟩
  | succ n ih =>
    obtain ⟨hmask, hzero, -, -, hnext⟩ := markOf_facts hk (by omega)
    have hrange : markOf k &&& sockMarkWanIndexBitMask ≠ 0 := by
      rw [hmask]
      exact hzero
    rw [availableFrom, rtkWanSockmarkCheck_text hes hrange, hnext]
    cases hany : es.any fun e => markOf k = e.sockmark with
    | false =>
      rw [List.any_eq_false] at hany
      left
      refine ⟨k, Nat.le_refl k, by omega, rfl, ?_⟩
      intro e he hsame
      exact hany e he (decide_eq_true hsame.symm)
    | true =>
      rw [List.any_eq_true] at hany
      obtain ⟨e, he, hsame⟩ := hany
      rcases ih (Nat.succ_pos k) (by omega) with ⟨j, hlow, hhigh, hfound, hfree⟩ | ⟨hnone, hused⟩
      · exact Or.inl ⟨j, by omega, hhigh, hfound, hfree⟩
      · right
        refine ⟨hnone, fun j hlow hhigh => ?_⟩
        rcases Nat.eq_or_lt_of_le hlow with rfl | hlow
        · exact ⟨e, he, (of_decide_eq_true hsame).symm⟩
        · exact hused j hlow hhigh

theorem getAvailable_text {es : List MarkLine} (hes : ∀ e ∈ es, Printable e) :
    (∃ j, 0 < j ∧ j ≤ 63 ∧ rtkWanSockmarkGetAvailable (fileText es) = some (markOf j) ∧
        ∀ e ∈ es, e.sockmark ≠ markOf j) ∨
      (rtkWanSockmarkGetAvailable (fileText es) = some 0 ∧
        ∀ j, 0 < j → j ≤ 63 → ∃ e ∈ es, e.sockmark = markOf j) :=
  availableFrom_text hes Nat.one_pos rfl

inductive Call where
  | add (ifname : Bytes) (type : UInt32)
  | remove (ifname : Bytes) (type : UInt32)

inductive Result where
  | added (mark : Option Nat)
  | removed (ret : Int)

/-- The file, with the additions of each name and class that are not removed yet. The class is
whether the type is that of an application. -/
structure Registry where
  file : Bytes
  adds : Bytes → Bool → Nat

def Registry.total (s : Registry) (name : Bytes) : Nat := s.adds name false + s.adds name true

/-- A new file, and the references of a name. -/
def Registry.counted (s : Registry) (file name : Bytes) (app : Bool) (n : Nat) : Registry where
  file := file
  adds := fun name' app' => if name' = name ∧ app' = app then n else s.adds name' app'

/-- One call under the lock file. -/
def step (s : Registry) : Call → Option (Registry × Result)
  | .add ifname type =>
    (rtkWanSockmarkAdd s.file ifname type).map fun res =>
      let n := s.adds ifname (isApp type)
      (s.counted res.1 ifname (isApp type) (if res.2.isSome then n + 1 else n), .added res.2)
  | .remove ifname type =>
    (rtkWanSockmarkRemove s.file ifname type).map fun res =>
      (s.counted res.1 ifname (isApp type) (s.adds ifname (isApp type) - 1), .removed res.2)

/-- Names are valid, and what is removed was added. -/
def Allowed (s : Registry) : Call → Prop
  | .add ifname _ => ValidName ifname
  | .remove ifname type => ValidName ifname ∧ 0 < s.adds ifname (isApp type)

/-- The references of the name stay within an `int`. -/
def Bounded (s : Registry) : Call → Prop
  | .add ifname _ => s.total ifname + 1 < 2 ^ 31
  | .remove _ _ => True

inductive Reach (ok : Registry → Call → Prop) : Registry → Prop where
  | empty : Reach ok ⟨[], fun _ _ => 0⟩
  | step {s s' : Registry} {call : Call} {result : Result} (h : Reach ok s) (hok : ok s call)
      (hstep : step s call = some (s', result)) : Reach ok s'

structure LineOk (s : Registry) (e : MarkLine) : Prop where
  refcnt : e.refcnt = s.adds e.ifname false
  refcnt2 : e.refcnt2 = s.adds e.ifname true
  used : 0 < s.total e.ifname
  mark : ∃ k, 0 < k ∧ k ≤ 63 ∧ e.sockmark = markOf k ∧ e.tblid = wanPolicyRouteTblidStart + k - 1

/-- The file is read as these lines: one for each name with references, with different marks. -/
structure Consistent (s : Registry) (es : List MarkLine) : Prop where
  read : readLines s.file = some es
  names : (es.map MarkLine.ifname).Nodup
  marks : (es.map MarkLine.sockmark).Nodup
  lines : ∀ e ∈ es, LineOk s e
  covered : ∀ name, 0 < s.total name → ∃ e ∈ es, e.ifname = name

/-- What holds between the calls. -/
structure Inv (s : Registry) (es : List MarkLine) : Prop where
  file : s.file = fileText es
  names : (es.map MarkLine.ifname).Nodup
  marks : (es.map MarkLine.sockmark).Nodup
  lines : ∀ e ∈ es, LineOk s e ∧ ValidName e.ifname
  covered : ∀ name, 0 < s.total name → ∃ e ∈ es, e.ifname = name
  bounded : ∀ name, s.total name < 2 ^ 31

variable {s : Registry} {es : List MarkLine}

theorem Inv.printable (h : Inv s es) : ∀ e ∈ es, Printable e := by
  intro e he
  obtain ⟨⟨hrefcnt, hrefcnt2, -, k, hpos, hle, hmark, htblid⟩, hname⟩ := h.lines e he
  have htotal := h.bounded e.ifname
  rw [Registry.total] at htotal
  refine ⟨hname, ?_, ⟨?_, ?_⟩, ⟨?_, ?_⟩, ⟨?_, ?_⟩⟩
  · rw [hmark]
    exact (markOf_facts hpos hle).2.2.2.1
  · rw [htblid, wanPolicyRouteTblidStart]
    omega
  · rw [htblid, wanPolicyRouteTblidStart]
    omega
  · omega
  · omega
  · omega
  · omega

theorem Inv.consistent (h : Inv s es) : Consistent s es :=
  ⟨by rw [h.file]; exact readLines_text h.printable, h.names, h.marks,
    fun e he => (h.lines e he).1, h.covered⟩

/-- The line of a name is the only one. -/
theorem Inv.unique (h : Inv s es) {e e' : MarkLine} (he : e ∈ es) (he' : e' ∈ es)
    (hname : e.ifname = e'.ifname) : e = e' :=
  List.inj_on_of_nodup_map h.names he he' hname

theorem wrapInt_eq {z : Int} (h : IsInt z) : wrapInt z = z := by
  rw [wrapInt]
  apply Int.bmod_eq_of_le
  · exact h.low
  · exact h.high

/-- What a call does to the marks, and what it reports. -/
def Follows (es es' : List MarkLine) (call : Call) (result : Result) : Prop :=
  (∀ e ∈ es, ∀ e' ∈ es', e.ifname = e'.ifname → e.sockmark = e'.sockmark) ∧
    match call, result with
    | .add ifname _, .added (some mark) => ∃ e ∈ es', e.ifname = ifname ∧ e.sockmark = mark
    | .add _ _, .added none => ∀ k, 0 < k → k ≤ 63 → ∃ e ∈ es, e.sockmark = markOf k
    | .remove _ _, .removed _ => True
    | _, _ => False

variable {file name name' : Bytes} {app app' : Bool} {n : Nat}

theorem counted_self : (s.counted file name app n).adds name app = n := if_pos ⟨rfl, rfl⟩

theorem counted_other (h : name' ≠ name ∨ app' ≠ app) :
    (s.counted file name app n).adds name' app' = s.adds name' app' :=
  if_neg fun hboth => h.elim (fun hne => hne hboth.1) fun hne => hne hboth.2

theorem total_other (h : name' ≠ name) :
    (s.counted file name app n).total name' = s.total name' := by
  rw [Registry.total, Registry.total, counted_other (Or.inl h), counted_other (Or.inl h)]

theorem total_self :
    (s.counted file name app n).total name + s.adds name app = s.total name + n := by
  rw [Registry.total, Registry.total]
  cases app with
  | true =>
    rw [counted_self, counted_other (Or.inr (by decide))]
    omega
  | false =>
    rw [counted_self, counted_other (Or.inr (by decide))]
    omega

theorem LineOk.other (h : LineOk s e) (hne : e.ifname ≠ name) :
    LineOk (s.counted file name app n) e := by
  refine ⟨?_, ?_, ?_, h.mark⟩
  · rw [counted_other (Or.inl hne)]
    exact h.refcnt
  · rw [counted_other (Or.inl hne)]
    exact h.refcnt2
  · rw [total_other hne]
    exact h.used

@[simp] theorem incLine_ifname (type : UInt32) (e : MarkLine) : (incLine type e).ifname = e.ifname := by
  rw [incLine]
  split <;> rfl

@[simp] theorem incLine_sockmark (type : UInt32) (e : MarkLine) :
    (incLine type e).sockmark = e.sockmark := by
  rw [incLine]
  split <;> rfl

@[simp] theorem incLine_tblid (type : UInt32) (e : MarkLine) : (incLine type e).tblid = e.tblid := by
  rw [incLine]
  split <;> rfl

theorem LineOk.inc (h : LineOk s e) (hbound : s.total e.ifname + 1 < 2 ^ 31) (type : UInt32) :
    LineOk (s.counted file e.ifname (isApp type) (s.adds e.ifname (isApp type) + 1))
      (incLine type e) := by
  obtain ⟨hrefcnt, hrefcnt2, hused, hmark⟩ := h
  have hself : (s.counted file e.ifname (isApp type) (s.adds e.ifname (isApp type) + 1)).total
      e.ifname + s.adds e.ifname (isApp type) = _ := total_self
  rw [Registry.total] at hbound
  refine ⟨?_, ?_, ?_, by simpa using hmark⟩
  · rw [incLine_ifname, incLine]
    cases isApp type with
    | true =>
      rw [counted_other (Or.inr (by decide))]
      exact hrefcnt
    | false =>
      rw [counted_self, if_neg (by decide)]
      dsimp only
      rw [wrapInt_eq ⟨by omega, by omega⟩, hrefcnt]
      rfl
  · rw [incLine_ifname, incLine]
    cases isApp type with
    | true =>
      rw [counted_self, if_pos rfl]
      dsimp only
      rw [wrapInt_eq ⟨by omega, by omega⟩, hrefcnt2]
      rfl
    | false =>
      rw [counted_other (Or.inr (by decide))]
      exact hrefcnt2
  · rw [incLine_ifname]
    omega

/-- The lines with a change to those of one name. -/
def updated (f : MarkLine → MarkLine) (name : Bytes) (es : List MarkLine) : List MarkLine :=
  es.map fun e => if e.ifname = name then f e else e

theorem map_updated {α : Type} {f : MarkLine → MarkLine} {g : MarkLine → α}
    (h : ∀ e, g (f e) = g e) (name : Bytes) (es : List MarkLine) :
    (updated f name es).map g = es.map g := by
  rw [updated, List.map_map]
  apply List.map_congr_left
  intro e he
  rw [Function.comp]
  split
  · exact h e
  · rfl

theorem mem_updated {f : MarkLine → MarkLine} {name : Bytes} {e' : MarkLine}
    (h : e' ∈ updated f name es) :
    ∃ e ∈ es, (e.ifname = name ∧ e' = f e) ∨ (e.ifname ≠ name ∧ e' = e) := by
  obtain ⟨e, he, rfl⟩ := List.mem_map.mp h
  by_cases hname : e.ifname = name
  · exact ⟨e, he, Or.inl ⟨hname, if_pos hname⟩⟩
  · exact ⟨e, he, Or.inr ⟨hname, if_neg hname⟩⟩

theorem mem_updated_of_mem (f : MarkLine → MarkLine) (name : Bytes) (he : e ∈ es) :
    (if e.ifname = name then f e else e) ∈ updated f name es :=
  List.mem_map_of_mem (f := fun e => if e.ifname = name then f e else e) he

/-- The last line of a name is its only one. -/
theorem Inv.last (h : Inv s es) (he : e ∈ es) :
    (es.filter fun e' => e'.ifname = e.ifname).getLast? = some e := by
  cases hlast : (es.filter fun e' => e'.ifname = e.ifname).getLast? with
  | none =>
    rw [List.getLast?_eq_none_iff] at hlast
    have hmem : e ∈ es.filter fun e' => e'.ifname = e.ifname :=
      List.mem_filter.mpr ⟨he, decide_eq_true rfl⟩
    rw [hlast] at hmem
    exact absurd hmem List.not_mem_nil
  | some e' =>
    have hmem := List.mem_of_getLast? hlast
    rw [List.mem_filter, decide_eq_true_eq] at hmem
    rw [h.unique hmem.1 he hmem.2]

theorem Inv.last_none (h : ∀ e ∈ es, e.ifname ≠ name) :
    (es.filter fun e' => e'.ifname = name).getLast? = none := by
  rw [List.getLast?_eq_none_iff, List.filter_eq_nil_iff]
  intro e he hname
  exact h e he (of_decide_eq_true hname)

theorem readLines_inv (h : Inv s es) : readLines s.file = some es := h.consistent.read

theorem flatMap_updated (f : MarkLine → MarkLine) (name : Bytes) (es : List MarkLine) :
    (es.flatMap fun e => (if e.ifname = name then f e else e).text) =
      fileText (updated f name es) := by
  rw [fileText, updated, List.flatMap_map]

theorem Inv.inc (h : Inv s es) (he : e ∈ es) (hbound : s.total e.ifname + 1 < 2 ^ 31)
    (type : UInt32) :
    rtkWanSockmarkAdd s.file e.ifname type =
        some (fileText (updated (incLine type) e.ifname es), some e.sockmark) ∧
      Inv (s.counted (fileText (updated (incLine type) e.ifname es)) e.ifname (isApp type)
        (s.adds e.ifname (isApp type) + 1)) (updated (incLine type) e.ifname es) := by
  have hname := (h.lines e he).2
  constructor
  · rw [rtkWanSockmarkAdd, if_neg hname.nonempty, rtkWanSockmarkIncRefcnt, readLines_inv h,
      Option.map_some, flatMap_updated, h.last he]
    rfl
  · refine ⟨rfl, ?_, ?_, ?_, ?_, ?_⟩
    · rw [map_updated (incLine_ifname type)]
      exact h.names
    · rw [map_updated (incLine_sockmark type)]
      exact h.marks
    · intro e' he'
      obtain ⟨e₁, he₁, ⟨hsame, rfl⟩ | ⟨hother, rfl⟩⟩ := mem_updated he'
      · obtain ⟨hline, hvalid⟩ := h.lines e₁ he₁
        rw [← hsame] at hbound ⊢
        exact ⟨hline.inc hbound type, by rwa [incLine_ifname]⟩
      · obtain ⟨hline, hvalid⟩ := h.lines e' he₁
        exact ⟨hline.other hother, hvalid⟩
    · intro name hused
      by_cases hsame : name = e.ifname
      · refine ⟨_, mem_updated_of_mem (incLine type) e.ifname he, ?_⟩
        rw [if_pos rfl, incLine_ifname, hsame]
      · rw [total_other hsame] at hused
        obtain ⟨e₁, he₁, rfl⟩ := h.covered name hused
        refine ⟨_, mem_updated_of_mem (incLine type) e.ifname he₁, ?_⟩
        rw [if_neg hsame]
    · intro name
      by_cases hsame : name = e.ifname
      · have hself : (s.counted (fileText (updated (incLine type) e.ifname es)) e.ifname
            (isApp type) (s.adds e.ifname (isApp type) + 1)).total e.ifname +
              s.adds e.ifname (isApp type) = _ := total_self
        rw [hsame]
        omega
      · rw [total_other hsame]
        exact h.bounded name

theorem updated_of_new (f : MarkLine → MarkLine) (hnew : ∀ e ∈ es, e.ifname ≠ name) :
    updated f name es = es := by
  have hsame : updated f name es = es.map id :=
    List.map_congr_left fun e he => if_neg (hnew e he)
  rw [hsame, List.map_id]

theorem Inv.total_new (h : Inv s es) (hnew : ∀ e ∈ es, e.ifname ≠ name) : s.total name = 0 := by
  by_contra hne
  obtain ⟨e, he, hname⟩ := h.covered name (Nat.pos_of_ne_zero hne)
  exact hnew e he hname

/-- The line that `rtk_wan_sockmark_create` writes. -/
def newLine (name : Bytes) (k : Nat) (type : UInt32) : MarkLine where
  ifname := name
  sockmark := markOf k
  tblid := wanPolicyRouteTblidStart + k - 1
  refcnt := if isApp type then 0 else 1
  refcnt2 := if isApp type then 1 else 0
  type := type

theorem LineOk.new {k : Nat} (hzero : s.total name = 0) (hpos : 0 < k) (hle : k ≤ 63)
    (type : UInt32) :
    LineOk (s.counted file name (isApp type) (s.adds name (isApp type) + 1))
      (newLine name k type) := by
  obtain ⟨hplain, happ⟩ := Nat.add_eq_zero_iff.mp hzero
  refine ⟨?_, ?_, ?_, k, hpos, hle, rfl, rfl⟩
  · rw [newLine]
    cases isApp type with
    | true =>
      dsimp only
      rw [counted_other (Or.inr (by decide)), hplain]
      rfl
    | false =>
      dsimp only
      rw [counted_self, hplain]
      rfl
  · rw [newLine]
    cases isApp type with
    | true =>
      dsimp only
      rw [counted_self, happ]
      rfl
    | false =>
      dsimp only
      rw [counted_other (Or.inr (by decide)), happ]
      rfl
  · have hself : (s.counted file name (isApp type) (s.adds name (isApp type) + 1)).total name +
        s.adds name (isApp type) = _ := total_self
    change 0 < (s.counted file name (isApp type) (s.adds name (isApp type) + 1)).total name
    omega

theorem add_new (h : Inv s es) (hname : ValidName name) (hnew : ∀ e ∈ es, e.ifname ≠ name)
    (type : UInt32) :
    rtkWanSockmarkAdd s.file name type = rtkWanSockmarkCreate s.file name type := by
  rw [rtkWanSockmarkAdd, if_neg hname.nonempty, rtkWanSockmarkIncRefcnt, readLines_inv h,
    Option.map_some, flatMap_updated, updated_of_new _ hnew, Inv.last_none hnew, ← h.file]
  rfl

theorem Inv.create (h : Inv s es) (hname : ValidName name) (hnew : ∀ e ∈ es, e.ifname ≠ name)
    (type : UInt32) :
    (∃ k, rtkWanSockmarkAdd s.file name type =
          some (fileText (es ++ [newLine name k type]), some (markOf k)) ∧
        Inv (s.counted (fileText (es ++ [newLine name k type])) name (isApp type)
          (s.adds name (isApp type) + 1)) (es ++ [newLine name k type])) ∨
      (rtkWanSockmarkAdd s.file name type = some (s.file, none) ∧
        ∀ k, 0 < k → k ≤ 63 → ∃ e ∈ es, e.sockmark = markOf k) := by
  have hzero := h.total_new hnew
  rw [add_new h hname hnew, rtkWanSockmarkCreate, h.file]
  rcases getAvailable_text h.printable with ⟨k, hpos, hle, hfound, hfree⟩ | ⟨hnone, hused⟩
  · left
    obtain ⟨-, hmark, hshift, -, -⟩ := markOf_facts hpos hle
    refine ⟨k, ?_, rfl, ?_, ?_, ?_, ?_, ?_⟩
    · rw [hfound]
      dsimp only
      rw [if_neg (by omega), hshift, fileText, fileText, List.flatMap_append,
        List.flatMap_singleton]
      rfl
    · rw [List.map_append, List.nodup_append]
      refine ⟨h.names, List.nodup_singleton _, ?_⟩
      intro a ha b hb
      obtain ⟨e, he, rfl⟩ := List.mem_map.mp ha
      rw [List.mem_singleton.mp hb]
      exact hnew e he
    · rw [List.map_append, List.nodup_append]
      refine ⟨h.marks, List.nodup_singleton _, ?_⟩
      intro a ha b hb
      obtain ⟨e, he, rfl⟩ := List.mem_map.mp ha
      rw [List.mem_singleton.mp hb]
      exact hfree e he
    · intro e he
      rcases List.mem_append.mp he with he | he
      · obtain ⟨hline, hvalid⟩ := h.lines e he
        exact ⟨hline.other (hnew e he), hvalid⟩
      · rw [List.mem_singleton.mp he]
        exact ⟨.new hzero hpos hle type, hname⟩
    · intro name' hused
      by_cases hsame : name' = name
      · exact ⟨newLine name k type, by simp, hsame.symm⟩
      · rw [total_other hsame] at hused
        obtain ⟨e, he, hcovers⟩ := h.covered name' hused
        exact ⟨e, List.mem_append_left _ he, hcovers⟩
    · intro name'
      by_cases hsame : name' = name
      · have hself : (s.counted (fileText (es ++ [newLine name k type])) name (isApp type)
            (s.adds name (isApp type) + 1)).total name + s.adds name (isApp type) = _ := total_self
        rw [hsame]
        omega
      · rw [total_other hsame]
        exact h.bounded name'
  · right
    refine ⟨?_, hused⟩
    rw [hnone]
    rfl

@[simp] theorem decLine_ifname (type : UInt32) (e : MarkLine) : (decLine type e).ifname = e.ifname := by
  rw [decLine]
  split <;> rfl

@[simp] theorem decLine_sockmark (type : UInt32) (e : MarkLine) :
    (decLine type e).sockmark = e.sockmark := by
  rw [decLine]
  split <;> rfl

@[simp] theorem decLine_tblid (type : UInt32) (e : MarkLine) : (decLine type e).tblid = e.tblid := by
  rw [decLine]
  split <;> rfl

theorem isUnused_iff (hbound : s.total e.ifname < 2 ^ 31) (hrefcnt : e.refcnt = s.adds e.ifname false)
    (hrefcnt2 : e.refcnt2 = s.adds e.ifname true) : e.isUnused = true ↔ s.total e.ifname = 0 := by
  rw [Registry.total] at hbound ⊢
  rw [MarkLine.isUnused, hrefcnt, hrefcnt2, wrapInt_eq ⟨by omega, by omega⟩, decide_eq_true_eq]
  omega

/-- The lines without a name that has no references any more. -/
def released (type : UInt32) (name : Bytes) (es : List MarkLine) : List MarkLine :=
  (updated (decLine type) name es).filter fun e => !(e.ifname == name && e.isUnused)

theorem flatMap_released (type : UInt32) (name : Bytes) (es : List MarkLine) :
    (es.flatMap fun e =>
      if e.ifname = name then
        if (decLine type e).isUnused then [] else (decLine type e).text
      else e.text) = fileText (released type name es) := by
  induction es with
  | nil => rfl
  | cons e es ih =>
    rw [List.flatMap_cons, ih]
    by_cases hname : e.ifname = name
    · cases hunused : (decLine type e).isUnused with
      | true => simp [released, updated, hname, hunused]
      | false => simp [released, updated, fileText, hname, hunused]
    · simp [released, updated, fileText, hname]

/-- The registry after one reference less. -/
def Registry.afterRemove (s : Registry) (es : List MarkLine) (type : UInt32) (name : Bytes) :
    Registry :=
  s.counted (fileText (released type name es)) name (isApp type) (s.adds name (isApp type) - 1)

/-- The counts of the name's line after one reference less. -/
theorem decLine_counts (h : LineOk s e) (es : List MarkLine) {type : UInt32}
    (hpos : 0 < s.adds e.ifname (isApp type)) :
    (decLine type e).refcnt = (s.afterRemove es type e.ifname).adds e.ifname false ∧
      (decLine type e).refcnt2 = (s.afterRemove es type e.ifname).adds e.ifname true := by
  obtain ⟨hrefcnt, hrefcnt2, -, -⟩ := h
  rw [decLine, Registry.afterRemove]
  cases happ : isApp type with
  | true =>
    rw [happ] at hpos
    rw [if_pos rfl, counted_self, counted_other (Or.inr (by decide))]
    refine ⟨hrefcnt, ?_⟩
    dsimp only
    rw [if_neg (by omega), hrefcnt2]
    omega
  | false =>
    rw [happ] at hpos
    rw [if_neg (by decide), counted_self, counted_other (Or.inr (by decide))]
    refine ⟨?_, hrefcnt2⟩
    dsimp only
    rw [if_neg (by omega), hrefcnt]
    omega

theorem Inv.total_afterRemove (h : Inv s es) (type : UInt32) (name name' : Bytes) :
    (s.afterRemove es type name).total name' < 2 ^ 31 := by
  rw [Registry.afterRemove]
  by_cases hsame : name' = name
  · have hself : (s.counted (fileText (released type name es)) name (isApp type)
        (s.adds name (isApp type) - 1)).total name + s.adds name (isApp type) = _ := total_self
    have hbound := h.bounded name
    rw [hsame]
    omega
  · rw [total_other hsame]
    exact h.bounded name'

/-- The line of the name goes when no references are left. -/
theorem Inv.unused_iff (h : Inv s es) {type : UInt32} (he : e ∈ es)
    (hpos : 0 < s.adds e.ifname (isApp type)) :
    (decLine type e).isUnused = true ↔ (s.afterRemove es type e.ifname).total e.ifname = 0 := by
  obtain ⟨hrefcnt, hrefcnt2⟩ := decLine_counts (h.lines e he).1 es hpos
  have hunused := isUnused_iff (s := s.afterRemove es type e.ifname) (e := decLine type e)
    (h.total_afterRemove type e.ifname _) (by rwa [decLine_ifname]) (by rwa [decLine_ifname])
  rwa [decLine_ifname] at hunused

theorem Inv.dec (h : Inv s es) {type : UInt32} (he : e ∈ es)
    (hpos : 0 < s.adds e.ifname (isApp type)) :
    rtkWanSockmarkRemove s.file e.ifname type =
        some (fileText (released type e.ifname es), if (decLine type e).isUnused then 0 else 1) ∧
      Inv (s.afterRemove es type e.ifname) (released type e.ifname es) := by
  have hname := (h.lines e he).2
  have hunused := h.unused_iff he hpos
  constructor
  · rw [rtkWanSockmarkRemove, if_neg hname.nonempty, rtkWanSockmarkDecRefcnt, readLines_inv h,
      Option.map_some, flatMap_released, h.last he]
  refine ⟨rfl, ?_, ?_, ?_, ?_, h.total_afterRemove type e.ifname⟩
  · rw [released]
    refine List.Nodup.sublist (List.filter_sublist.map MarkLine.ifname) ?_
    rw [map_updated (decLine_ifname type)]
    exact h.names
  · rw [released]
    refine List.Nodup.sublist (List.filter_sublist.map MarkLine.sockmark) ?_
    rw [map_updated (decLine_sockmark type)]
    exact h.marks
  · intro e' he'
    obtain ⟨hmem, hkept⟩ := List.mem_filter.mp he'
    obtain ⟨e₁, he₁, ⟨hsame, rfl⟩ | ⟨hother, rfl⟩⟩ := mem_updated hmem
    · obtain rfl := h.unique he₁ he hsame
      obtain ⟨hline, hvalid⟩ := h.lines e₁ he₁
      obtain ⟨hrefcnt, hrefcnt2⟩ := decLine_counts hline es hpos
      rw [decLine_ifname, beq_self_eq_true, Bool.true_and, Bool.not_eq_true'] at hkept
      refine ⟨⟨by rwa [decLine_ifname], by rwa [decLine_ifname], ?_, ?_⟩, by rwa [decLine_ifname]⟩
      · rw [decLine_ifname]
        apply Nat.pos_of_ne_zero
        intro hzero
        rw [hunused.mpr hzero] at hkept
        cases hkept
      · simpa using hline.mark
    · obtain ⟨hline, hvalid⟩ := h.lines e' he₁
      exact ⟨hline.other hother, hvalid⟩
  · intro name hused
    by_cases hsame : name = e.ifname
    · have hmem := mem_updated_of_mem (decLine type) e.ifname he
      rw [if_pos rfl] at hmem
      refine ⟨decLine type e, List.mem_filter.mpr ⟨hmem, ?_⟩, by rw [decLine_ifname, hsame]⟩
      rw [decLine_ifname, beq_self_eq_true, Bool.true_and, Bool.not_eq_true', Bool.eq_false_iff]
      intro hno
      rw [hsame, hunused.mp hno] at hused
      exact Nat.lt_irrefl 0 hused
    · rw [Registry.afterRemove, total_other hsame] at hused
      obtain ⟨e₁, he₁, rfl⟩ := h.covered name hused
      have hmem := mem_updated_of_mem (decLine type) e.ifname he₁
      rw [if_neg hsame] at hmem
      exact ⟨e₁, List.mem_filter.mpr ⟨hmem, by simp [hsame]⟩, rfl⟩

theorem Inv.empty : Inv ⟨[], fun _ _ => 0⟩ [] :=
  ⟨rfl, List.nodup_nil, List.nodup_nil, fun _ he => absurd he List.not_mem_nil,
    fun _ hused => absurd hused (Nat.lt_irrefl 0), fun _ => Nat.two_pow_pos 31⟩

theorem counted_same : s.counted s.file name app (s.adds name app) = s := by
  rw [Registry.counted]
  congr 1
  funext name' app'
  split
  · rename_i hsame
    rw [hsame.1, hsame.2]
  · rfl

/-- Every line has the name and the mark of an old line, or a new name. -/
theorem Inv.keeps (h : Inv s es) {es' : List MarkLine}
    (hes : ∀ e' ∈ es', (∃ e ∈ es, e.ifname = e'.ifname ∧ e.sockmark = e'.sockmark) ∨
      ∀ e ∈ es, e.ifname ≠ e'.ifname) :
    ∀ e ∈ es, ∀ e' ∈ es', e.ifname = e'.ifname → e.sockmark = e'.sockmark := by
  intro e he e' he' hname
  rcases hes e' he' with ⟨e₁, he₁, hname₁, hmark₁⟩ | hnew
  · rw [← hmark₁, h.unique he he₁ (hname.trans hname₁.symm)]
  · exact absurd hname (hnew e he)

theorem keeps_updated {f : MarkLine → MarkLine} (hname : ∀ e, (f e).ifname = e.ifname)
    (hmark : ∀ e, (f e).sockmark = e.sockmark) {e' : MarkLine} (he' : e' ∈ updated f name es) :
    ∃ e ∈ es, e.ifname = e'.ifname ∧ e.sockmark = e'.sockmark := by
  obtain ⟨e, he, ⟨-, rfl⟩ | ⟨-, rfl⟩⟩ := mem_updated he'
  · exact ⟨e, he, (hname e).symm, (hmark e).symm⟩
  · exact ⟨e', he, rfl, rfl⟩

/-- What one call does to the file. -/
theorem Inv.step (h : Inv s es) {call : Call} (hok : Allowed s call) (hbound : Bounded s call) :
    ∃ s' result es', step s call = some (s', result) ∧ Inv s' es' ∧ Follows es es' call result := by
  cases call with
  | add name type =>
    by_cases hnew : ∀ e ∈ es, e.ifname ≠ name
    · rcases h.create hok hnew type with ⟨k, hadd, hinv⟩ | ⟨hadd, hused⟩
      · refine ⟨_, .added (some (markOf k)), _, ?_, hinv, h.keeps ?_, ?_⟩
        · rw [SockMarkRuns.step, hadd]
          rfl
        · intro e' he'
          rcases List.mem_append.mp he' with he' | he'
          · exact Or.inl ⟨e', he', rfl, rfl⟩
          · rw [List.mem_singleton.mp he']
            exact Or.inr hnew
        · exact ⟨newLine name k type, by simp, rfl, rfl⟩
      · refine ⟨s, .added none, es, ?_, h, h.keeps fun e he => Or.inl ⟨e, he, rfl, rfl⟩, hused⟩
        rw [SockMarkRuns.step, hadd, Option.map_some]
        exact congrArg (fun s' => some (s', Result.added none)) counted_same
    · push Not at hnew
      obtain ⟨e, he, rfl⟩ := hnew
      obtain ⟨hadd, hinv⟩ := h.inc he hbound type
      refine ⟨_, .added (some e.sockmark), _, ?_, hinv, h.keeps fun e' he' => Or.inl ?_, ?_⟩
      · rw [SockMarkRuns.step, hadd]
        rfl
      · exact keeps_updated (incLine_ifname type) (incLine_sockmark type) he'
      · have hmem := mem_updated_of_mem (incLine type) e.ifname he
        rw [if_pos rfl] at hmem
        exact ⟨incLine type e, hmem, incLine_ifname type e, incLine_sockmark type e⟩
  | remove name type =>
    obtain ⟨hname, hpos⟩ := hok
    have hused : 0 < s.total name := by
      rw [Registry.total]
      cases happ : isApp type <;> rw [happ] at hpos <;> omega
    obtain ⟨e, he, rfl⟩ := h.covered name hused
    obtain ⟨hremove, hinv⟩ := h.dec he hpos
    refine ⟨_, .removed (if (decLine type e).isUnused then 0 else 1), _, ?_, hinv,
      h.keeps fun e' he' => Or.inl ?_, trivial⟩
    · rw [SockMarkRuns.step, hremove]
      rfl
    · exact keeps_updated (decLine_ifname type) (decLine_sockmark type) (List.mem_of_mem_filter he')

/-- In every run within the bound the file is consistent, and every call does what it reports. -/
theorem reach_inv (h : Reach (fun s call => Allowed s call ∧ Bounded s call) s) :
    ∃ es, Inv s es := by
  induction h with
  | empty => exact ⟨[], Inv.empty⟩
  | step hreach hok hstep ih =>
    obtain ⟨es, hinv⟩ := ih
    obtain ⟨s', result, es', hnext, hinv', -⟩ := hinv.step hok.1 hok.2
    cases hstep.symm.trans hnext
    exact ⟨es', hinv'⟩

/-- In every run in which the references of no name exceed an `int`, the file holds one line for
each name with references, with its counts and a mark of its own; every call succeeds in reading
it, keeps the marks of the names and reports the mark that it stores, and an addition fails only
when all marks are in use. -/
theorem registry_runs (h : Reach (fun s call => Allowed s call ∧ Bounded s call) s) :
    ∃ es, Consistent s es ∧
      (∀ e ∈ es, e.sockmark ≠ 0 ∧ 2 ^ sockMarkWanIndexStart ∣ e.sockmark ∧
        e.sockmark &&& sockMarkWanIndexBitMask = e.sockmark) ∧
      ∀ call, Allowed s call → Bounded s call → ∃ s' result es',
        step s call = some (s', result) ∧ Consistent s' es' ∧ Follows es es' call result := by
  obtain ⟨es, hinv⟩ := reach_inv h
  refine ⟨es, hinv.consistent, ?_, ?_⟩
  · intro e he
    obtain ⟨k, hpos, hle, hmark, -⟩ := (hinv.lines e he).1.mark
    obtain ⟨hmask, hne, -, -, -⟩ := markOf_facts hpos hle
    rw [hmark]
    exact ⟨hne, ⟨k, by rw [markOf, Nat.shiftLeft_eq, Nat.mul_comm]⟩, hmask⟩
  · intro call hok hbound
    obtain ⟨s', result, es', hstep, hinv', hfollows⟩ := hinv.step hok hbound
    exact ⟨s', result, es', hstep, hinv'.consistent, hfollows⟩

def loopName : Bytes := ascii "a"

theorem loopName_valid : ValidName loopName := by
  refine ⟨by decide, by decide, ?_⟩
  intro c hc
  have hsingle : c ∈ ([97] : Bytes) := hc
  rw [List.mem_singleton.mp hsingle]
  decide

theorem loopName_allowed (s : Registry) : Allowed s (.add loopName 1) := loopName_valid

def countLine (z : Int) : MarkLine where
  ifname := loopName
  sockmark := 8192
  tblid := 512
  refcnt := z
  refcnt2 := 0
  type := 1

theorem countLine_printable {z : Int} (hz : IsInt z) : ∀ e ∈ [countLine z], Printable e := by
  intro e he
  rw [List.mem_singleton.mp he]
  have hmark : (8192 : Nat) < 2 ^ 32 := by decide
  have htblid : IsInt 512 := ⟨by decide, by decide⟩
  have hzero : IsInt 0 := ⟨by decide, by decide⟩
  exact ⟨loopName_valid, hmark, htblid, hz, hzero⟩

theorem incLine_countLine (z : Int) : incLine 1 (countLine z) = countLine (wrapInt (z + 1)) := by
  have happ : isApp 1 = false := by decide
  have htype : (1 : UInt32) ||| 1 = 1 := by decide
  rw [incLine, happ, if_neg Bool.false_ne_true, countLine]
  dsimp only
  rw [htype]
  rfl

theorem add_countLine {z : Int} (hz : IsInt z) :
    rtkWanSockmarkAdd (fileText [countLine z]) loopName 1 =
      some (fileText [countLine (wrapInt (z + 1))], some 8192) := by
  have hline : updated (incLine 1) loopName [countLine z] = [countLine (wrapInt (z + 1))] :=
    congrArg (fun e => [e]) (incLine_countLine z)
  have hlast : ([countLine z].filter fun e => e.ifname = loopName).getLast? =
      some (countLine z) := rfl
  rw [rtkWanSockmarkAdd, if_neg loopName_valid.nonempty, rtkWanSockmarkIncRefcnt,
    readLines_text (countLine_printable hz), Option.map_some, flatMap_updated, hline, hlast]
  rfl

theorem add_first : rtkWanSockmarkAdd [] loopName 1 =
    some (fileText [countLine 1], some 8192) := by
  decide

/-- The registry after one addition more. -/
theorem step_count {s : Registry} {z : Int} (hz : IsInt z) (hfile : s.file = fileText [countLine z]) :
    step s (.add loopName 1) =
      some (s.counted (fileText [countLine (wrapInt (z + 1))]) loopName false
        (s.adds loopName false + 1), .added (some 8192)) := by
  rw [step, hfile, add_countLine hz]
  rfl

theorem reach_count (n : Nat) (hn : n + 1 < 2 ^ 31) :
    ∃ s, Reach Allowed s ∧ s.file = fileText [countLine (n + 1 : Nat)] ∧
      s.adds loopName false = n + 1 := by
  induction n with
  | zero =>
    have hstep : step ⟨[], fun _ _ => 0⟩ (.add loopName 1) =
        some (Registry.counted ⟨[], fun _ _ => 0⟩ (fileText [countLine 1]) loopName false 1,
          .added (some 8192)) := by
      rw [step, add_first]
      rfl
    exact ⟨_, .step .empty (loopName_allowed _) hstep, rfl, counted_self⟩
  | succ n ih =>
    obtain ⟨s, hreach, hfile, hadds⟩ := ih (by omega)
    have hint : IsInt (n + 1 : Nat) := ⟨by omega, by omega⟩
    have hnext : wrapInt ((n + 1 : Nat) + 1) = (n + 1 + 1 : Nat) := by
      rw [wrapInt_eq ⟨by omega, by omega⟩]
      rfl
    refine ⟨_, .step hreach (loopName_allowed s) (step_count hint hfile), ?_, ?_⟩
    · rw [hnext]
      rfl
    · rw [counted_self, hadds]

/-- The count of a name with 2 ^ 31 references wraps around. -/
theorem references_overflow :
    ¬ ∀ s, Reach Allowed s → ∃ es, Consistent s es := by
  intro hclaim
  obtain ⟨s, hreach, hfile, hadds⟩ := reach_count (2 ^ 31 - 2) (by decide)
  have hint : IsInt (2 ^ 31 - 2 + 1 : Nat) := ⟨by decide, by decide⟩
  obtain ⟨es, hconsistent⟩ := hclaim _ (.step hreach (loopName_allowed s) (step_count hint hfile))
  have hwrap : wrapInt ((2 ^ 31 - 2 + 1 : Nat) + 1) = -(2 ^ 31) := by decide
  have hread : readLines (fileText [countLine (-(2 ^ 31))]) = some es := hwrap ▸ hconsistent.read
  rw [readLines_text (countLine_printable ⟨by decide, by decide⟩), Option.some_inj] at hread
  have hline := (hconsistent.lines (countLine (-(2 ^ 31)))
    (hread ▸ List.mem_singleton_self _)).refcnt
  have hcount : (countLine (-(2 ^ 31))).refcnt = (s.adds loopName false + 1 : Nat) :=
    hline.trans (congrArg Nat.cast counted_self)
  rw [hadds] at hcount
  exact absurd hcount (by decide)

def portName : Bytes := ascii "b"

theorem portName_valid : ValidName portName := by
  refine ⟨by decide, by decide, ?_⟩
  intro c hc
  have hsingle : c ∈ ([98] : Bytes) := hc
  rw [List.mem_singleton.mp hsingle]
  decide

def portLine : MarkLine where
  ifname := portName
  sockmark := 16384
  tblid := 513
  refcnt := 0
  refcnt2 := 1
  type := 2

def loopAdded : Registry :=
  Registry.counted ⟨[], fun _ _ => 0⟩ (fileText [countLine 1]) loopName false 1

/-- A second name, of the other class. -/
def portAdded : Registry :=
  loopAdded.counted (fileText [countLine 1, portLine]) portName true 1

/-- The first name is removed again. -/
def portLeft : Registry := portAdded.counted (fileText [portLine]) loopName false 0

theorem registry_runs_names : ∃ es, Consistent portLeft es := by
  have hadd : rtkWanSockmarkAdd (fileText [countLine 1]) portName 2 =
      some (fileText [countLine 1, portLine], some 16384) := by
    decide +kernel
  have hremove : rtkWanSockmarkRemove (fileText [countLine 1, portLine]) loopName 1 =
      some (fileText [portLine], 0) := by
    decide +kernel
  have hstep₁ : step ⟨[], fun _ _ => 0⟩ (.add loopName 1) =
      some (loopAdded, .added (some 8192)) := by
    rw [step, add_first]
    rfl
  have hstep₂ : step loopAdded (.add portName 2) = some (portAdded, .added (some 16384)) := by
    have hfile : loopAdded.file = fileText [countLine 1] := rfl
    rw [step, hfile, hadd]
    rfl
  have hstep₃ : step portAdded (.remove loopName 1) = some (portLeft, .removed 0) := by
    have hfile : portAdded.file = fileText [countLine 1, portLine] := rfl
    rw [step, hfile, hremove]
    rfl
  have hok₁ : Allowed ⟨[], fun _ _ => 0⟩ (.add loopName 1) := loopName_valid
  have hbound₁ : Bounded ⟨[], fun _ _ => 0⟩ (.add loopName 1) := Nat.one_lt_two_pow (by decide)
  have hok₂ : Allowed loopAdded (.add portName 2) := portName_valid
  have hbound₂ : Bounded loopAdded (.add portName 2) := by
    change loopAdded.total portName + 1 < 2 ^ 31
    decide
  have hused : 0 < portAdded.adds loopName (isApp 1) := by
    decide
  have hok₃ : Allowed portAdded (.remove loopName 1) := ⟨loopName_valid, hused⟩
  have hreach₁ : Reach (fun s call => Allowed s call ∧ Bounded s call) loopAdded :=
    .step .empty ⟨hok₁, hbound₁⟩ hstep₁
  have hreach₂ := hreach₁.step ⟨hok₂, hbound₂⟩ hstep₂
  obtain ⟨es, hconsistent, -⟩ := registry_runs (hreach₂.step ⟨hok₃, trivial⟩ hstep₃)
  exact ⟨es, hconsistent⟩

end SockMarkRuns
