import BoaGateway.ByteBlocks

/-!
# A text buffer in front of a file

Texts are appended to a buffer with `snprintf`, and from time to time what has been collected
goes to the file. The index grows by the length that a text needs, whether it fits or not. All
of the text arrives exactly when every stretch between two flushes is shorter than the limit.
-/

namespace TextBuffer

open ByteBlocks

variable {cap : Nat}

/-- The buffer with its index, the file, and the largest value that the index has had. -/
structure Writer (cap : Nat) where
  strbuf : Block (cap + 1)
  bc : Nat
  file : Bytes
  top : Nat

/-- `bc += snprintf(strbuf + bc, cap - bc, …)`. Nothing is written at the limit; behind it the
size is a huge number and the text goes where the index points. -/
def Writer.snprintf (w : Writer cap) (text : Bytes) : Option (Writer cap) :=
  if cap < w.bc then none
  else
    (if w.bc = cap then some w.strbuf
      else w.strbuf.write w.bc (text.take (cap - w.bc - 1) ++ [0])).map fun strbuf =>
        { w with strbuf, bc := w.bc + text.length, top := max w.top (w.bc + text.length) }

/-- The index is cut to the limit, and so many bytes go to the file. -/
def Writer.flush (w : Writer cap) : Option (Writer cap) :=
  if w.bc = 0 then some w
  else
    (w.strbuf.write (min w.bc cap) [0]).map fun strbuf =>
      { w with strbuf, bc := 0, file := w.file ++ strbuf.1.take (min w.bc cap) }

inductive Event where
  | print (text : Bytes)
  | flush

def Event.run : Event → Writer cap → Option (Writer cap)
  | print text, w => w.snprintf text
  | flush, w => w.flush

def run : List Event → Writer cap → Option (Writer cap)
  | [], w => some w
  | e :: es, w => (e.run w).bind (run es)

/-- All texts, one behind the other. -/
def texts : List Event → Bytes
  | [] => []
  | .print text :: es => text ++ texts es
  | .flush :: es => texts es

/-- Every stretch between two flushes stays below the limit, with so many bytes before the
first event. -/
def Fits (cap : Nat) : Nat → List Event → Prop
  | _, [] => True
  | c, .print text :: es => c + text.length < cap ∧ Fits cap (c + text.length) es
  | _, .flush :: es => Fits cap 0 es

instance decFits (cap : Nat) : (c : Nat) → (es : List Event) → Decidable (Fits cap c es)
  | _, [] => .isTrue trivial
  | c, .print text :: es => @instDecidableAnd _ _ _ (decFits cap (c + text.length) es)
  | _, .flush :: es => decFits cap 0 es

/-- No text begins behind the limit, with so many bytes before the first event. -/
def Begins (cap : Nat) : Nat → List Event → Prop
  | _, [] => True
  | c, .print text :: es => c ≤ cap ∧ Begins cap (c + text.length) es
  | _, .flush :: es => Begins cap 0 es

instance decBegins (cap : Nat) : (c : Nat) → (es : List Event) → Decidable (Begins cap c es)
  | _, [] => .isTrue trivial
  | c, .print text :: es => @instDecidableAnd _ _ _ (decBegins cap (c + text.length) es)
  | _, .flush :: es => decBegins cap 0 es

/-- The texts that are printed are not empty and do not end with a zero byte. -/
def Plain (es : List Event) : Prop :=
  ∀ text, Event.print text ∈ es → text ≠ [] ∧ text.getLast? ≠ some 0

theorem run_append (es es' : List Event) (w : Writer cap) :
    run (es ++ es') w = (run es w).bind (run es') := by
  induction es generalizing w with
  | nil => rfl
  | cons e es ih =>
    rw [List.cons_append, run, run, Option.bind_assoc]
    exact Option.bind_congr fun w' _ => ih w'

theorem texts_append (es es' : List Event) : texts (es ++ es') = texts es ++ texts es' := by
  induction es with
  | nil => rfl
  | cons e es ih =>
    cases e with
    | print text => rw [List.cons_append, texts, texts, ih, List.append_assoc]
    | flush => exact ih

theorem plain_nil : Plain [] := fun _ h => absurd h List.not_mem_nil

theorem Plain.append {es es' : List Event} (h : Plain es) (h' : Plain es') :
    Plain (es ++ es') := by
  intro text hmem
  rcases List.mem_append.mp hmem with hmem | hmem
  · exact h text hmem
  · exact h' text hmem

theorem plain_print {text : Bytes} (hne : text ≠ []) (hlast : text.getLast? ≠ some 0) :
    Plain [.print text] := by
  intro t hmem
  cases List.mem_singleton.mp hmem
  exact ⟨hne, hlast⟩

theorem plain_flush : Plain [.flush] := by
  intro t hmem
  cases List.mem_singleton.mp hmem

theorem Plain.tail {e : Event} {es : List Event} (h : Plain (e :: es)) : Plain es :=
  fun text hmem => h text (List.mem_cons_of_mem e hmem)

theorem Fits.left {es es' : List Event} {c : Nat} (h : Fits cap c (es ++ es')) :
    Fits cap c es := by
  induction es generalizing c with
  | nil => trivial
  | cons e es ih =>
    cases e with
    | print text => exact ⟨h.1, ih h.2⟩
    | flush => exact ih h

/-- What follows some texts fits behind a number of bytes. -/
theorem Fits.right {es es' : List Event} {c : Nat} (hc : c < cap) (h : Fits cap c (es ++ es')) :
    ∃ d < cap, Fits cap d es' := by
  induction es generalizing c with
  | nil => exact ⟨c, hc, h⟩
  | cons e es ih =>
    cases e with
    | print text => exact ih h.1 h.2
    | flush => exact ih (Nat.lt_of_le_of_lt (Nat.zero_le c) hc) h

/-- Without a flush everything counts. -/
theorem Fits.length_texts {es : List Event} {c : Nat} (hc : c < cap) (h : Fits cap c es)
    (hflush : Event.flush ∉ es) : c + (texts es).length < cap := by
  induction es generalizing c with
  | nil => exact hc
  | cons e es ih =>
    rw [List.mem_cons, not_or] at hflush
    cases e with
    | print text =>
      have hrest := ih h.1 h.2 hflush.2
      rw [texts, List.length_append]
      omega
    | flush => exact absurd rfl hflush.1

/-- The text that has been collected lies in the buffer, below the limit. -/
structure Holds (w : Writer cap) (text : Bytes) : Prop where
  bc : w.bc = text.length
  room : text.length < cap
  strbuf : w.strbuf.1.take text.length = text
  top : w.top ≤ cap

theorem take_of_write {m : Nat} {b c : Block m} {off : Nat} {data : Bytes}
    (h : b.write off data = some c) :
    c.1.take (off + data.length) = b.1.take off ++ data := by
  obtain ⟨hin, hc⟩ := Block.write_eq_some_iff.mp h
  have hlen : (b.1.take off ++ data).length = off + data.length := by
    rw [List.length_append, List.length_take, b.2]
    omega
  rw [hc, ← hlen, List.take_left]

/-- A text that stays below the limit is collected. -/
theorem snprintf_holds {w : Writer cap} {old text : Bytes} (hw : Holds w old)
    (hroom : old.length + text.length < cap) :
    ∃ w', w.snprintf text = some w' ∧ w'.file = w.file ∧ Holds w' (old ++ text) := by
  obtain ⟨hbc, hold, hstrbuf, htop⟩ := hw
  have htake : text.take (cap - w.bc - 1) = text := List.take_of_length_le (by omega)
  obtain ⟨b, hb⟩ : ∃ b, w.strbuf.write w.bc (text ++ [0]) = some b :=
    Block.write_fits _ (by rw [List.length_append, List.length_singleton]; omega)
  have hlen : (old ++ text).length = old.length + text.length := List.length_append
  refine ⟨{ w with strbuf := b, bc := w.bc + text.length,
                   top := max w.top (w.bc + text.length) }, ?_, rfl, ?_, ?_, ?_, ?_⟩
  · rw [Writer.snprintf, if_neg (by omega), if_neg (by omega), htake, hb]
    rfl
  · rw [hlen, ← hbc]
  · rwa [hlen]
  · have hprefix := take_of_write hb
    rw [hbc, hstrbuf, ← List.append_assoc] at hprefix
    have hcut := congrArg (List.take (old ++ text).length) hprefix
    rw [List.take_left, List.take_take, hlen, List.length_append,
      Nat.min_eq_left (by omega)] at hcut
    rw [hlen]
    exact hcut
  · exact max_le htop (by omega)

/-- What has been collected goes to the file. -/
theorem flush_holds {w : Writer cap} {text : Bytes} (hw : Holds w text) :
    ∃ w', w.flush = some w' ∧ w'.file = w.file ++ text ∧ Holds w' [] := by
  obtain ⟨hbc, hroom, hstrbuf, htop⟩ := hw
  by_cases hzero : w.bc = 0
  · have hnil : text = [] := List.length_eq_zero_iff.mp (hbc ▸ hzero)
    subst hnil
    refine ⟨w, if_pos hzero, (List.append_nil _).symm, hbc, hroom, hstrbuf, htop⟩
  · have hmin : min w.bc cap = text.length := by omega
    obtain ⟨b, hb⟩ : ∃ b, w.strbuf.write text.length [0] = some b :=
      Block.write_fits _ (by rw [List.length_singleton]; omega)
    have hprefix := take_of_write hb
    rw [hstrbuf] at hprefix
    have hcut := congrArg (List.take text.length) hprefix
    rw [List.take_left, List.take_take, Nat.min_eq_left (Nat.le_add_right _ _)] at hcut
    refine ⟨{ w with strbuf := b, bc := 0, file := w.file ++ b.1.take text.length }, ?_, ?_,
      rfl, by rw [List.length_nil]; omega, rfl, htop⟩
    · rw [Writer.flush, if_neg hzero, hmin, hb]
      rfl
    · rw [hcut]

theorem snprintf_isSome_iff (w : Writer cap) (text : Bytes) :
    (w.snprintf text).isSome = true ↔ w.bc ≤ cap := by
  rw [Writer.snprintf]
  split
  · rename_i hbehind
    exact iff_of_false Bool.false_ne_true (Nat.not_le_of_lt hbehind)
  · rename_i hwithin
    refine iff_of_true ?_ (Nat.le_of_not_lt hwithin)
    rw [Option.isSome_map]
    split
    · rfl
    · obtain ⟨b, hb⟩ : ∃ b, w.strbuf.write w.bc (text.take (cap - w.bc - 1) ++ [0]) = some b := by
        refine Block.write_fits _ ?_
        rw [List.length_append, List.length_take, List.length_singleton]
        omega
      rw [hb]
      rfl

theorem snprintf_bc {w w' : Writer cap} {text : Bytes} (h : w.snprintf text = some w') :
    w'.bc = w.bc + text.length := by
  rw [Writer.snprintf] at h
  split at h
  · cases h
  · obtain ⟨b, -, rfl⟩ := Option.map_eq_some_iff.mp h
    rfl

theorem flush_runs (w : Writer cap) : ∃ w', w.flush = some w' ∧ w'.bc = 0 := by
  by_cases hzero : w.bc = 0
  · exact ⟨w, if_pos hzero, hzero⟩
  · obtain ⟨b, hb⟩ : ∃ b, w.strbuf.write (min w.bc cap) [0] = some b := by
      refine Block.write_fits _ ?_
      rw [List.length_singleton]
      omega
    refine ⟨{ w with strbuf := b, bc := 0, file := w.file ++ b.1.take (min w.bc cap) }, ?_, rfl⟩
    rw [Writer.flush, if_neg hzero, hb]
    rfl

/-- Texts and flushes have a result exactly when no text begins behind the limit. -/
theorem run_isSome_iff (es : List Event) (w : Writer cap) :
    (run es w).isSome = true ↔ Begins cap w.bc es := by
  induction es generalizing w with
  | nil => exact iff_of_true rfl trivial
  | cons e es ih =>
    cases e with
    | print text =>
      rw [run, Event.run, Begins, ← snprintf_isSome_iff w text]
      cases hstep : w.snprintf text with
      | none => exact iff_of_false Bool.false_ne_true fun h => Bool.false_ne_true h.1
      | some w' =>
        rw [Option.bind_some, ih w', snprintf_bc hstep, Option.isSome_some, eq_self, true_and]
    | flush =>
      obtain ⟨w', hstep, hzero⟩ := flush_runs w
      rw [run, Event.run, hstep, Option.bind_some, ih w', hzero, Begins]

theorem run_grows {es : List Event} {w w' : Writer cap} (h : run es w = some w') :
    w.file <+: w'.file ∧ w.top ≤ w'.top := by
  induction es generalizing w with
  | nil =>
    cases h
    exact ⟨List.prefix_rfl, Nat.le_refl _⟩
  | cons e es ih =>
    obtain ⟨w₁, hstep, hrest⟩ := Option.bind_eq_some_iff.mp h
    obtain ⟨hfile, htop⟩ := ih hrest
    cases e with
    | print text =>
      change w.snprintf text = some w₁ at hstep
      rw [Writer.snprintf] at hstep
      split at hstep
      · cases hstep
      · obtain ⟨b, -, rfl⟩ := Option.map_eq_some_iff.mp hstep
        exact ⟨hfile, Nat.le_trans (Nat.le_max_left _ _) htop⟩
    | flush =>
      change w.flush = some w₁ at hstep
      rw [Writer.flush] at hstep
      split at hstep
      · cases hstep
        exact ⟨hfile, htop⟩
      · obtain ⟨b, -, rfl⟩ := Option.map_eq_some_iff.mp hstep
        exact ⟨(List.prefix_append _ _).trans hfile, htop⟩

/-- A text that goes behind the limit shows in the largest index. -/
theorem snprintf_top {w w' : Writer cap} {text : Bytes} (h : w.snprintf text = some w') :
    w.bc + text.length ≤ w'.top := by
  rw [Writer.snprintf] at h
  split at h
  · cases h
  · obtain ⟨b, -, rfl⟩ := Option.map_eq_some_iff.mp h
    exact Nat.le_max_right _ _

/-- A text that ends at the limit loses its last byte to the zero byte. -/
theorem snprintf_full {w w' : Writer cap} {old text : Bytes} (hw : Holds w old)
    (hfull : old.length + text.length = cap) (h : w.snprintf text = some w') :
    w'.bc = cap ∧ w'.file = w.file ∧ ∃ head, w'.strbuf.1.take cap = head ++ [0] := by
  obtain ⟨hbc, hroom, -, -⟩ := hw
  rw [Writer.snprintf, if_neg (by omega), if_neg (by omega)] at h
  obtain ⟨b, hb, rfl⟩ := Option.map_eq_some_iff.mp h
  have hprefix := take_of_write hb
  have hlen : w.bc + (text.take (cap - w.bc - 1) ++ [0]).length = cap := by
    rw [List.length_append, List.length_take, List.length_singleton]
    omega
  rw [hlen, ← List.append_assoc] at hprefix
  refine ⟨?_, rfl, _, hprefix⟩
  dsimp only
  omega

theorem flush_full {w w' : Writer cap} {head : Bytes} (hbc : w.bc = cap) (hcap : 0 < cap)
    (hhead : w.strbuf.1.take cap = head ++ [0]) (h : w.flush = some w') :
    w'.file = w.file ++ (head ++ [0]) := by
  rw [Writer.flush, if_neg (by omega), hbc, Nat.min_self] at h
  obtain ⟨b, hb, rfl⟩ := Option.map_eq_some_iff.mp h
  have hcut := congrArg (List.take cap) (take_of_write hb)
  have hlen : (w.strbuf.1.take cap).length = cap := by
    rw [List.length_take, w.strbuf.2]
    omega
  rw [List.take_take, Nat.min_eq_left (Nat.le_add_right _ _), List.take_append_of_le_length
    hlen.ge, List.take_take, Nat.min_self] at hcut
  rw [← hhead, ← hcut]

/-- The zero byte stands in the file, or the index goes behind the limit. -/
theorem full_loses {es : List Event} {text : Bytes} {w w' : Writer cap} {old : Bytes}
    (hw : Holds w old) (hes : Plain (.print text :: es)) (hfull : old.length + text.length = cap)
    (h : run (.print text :: es ++ [.flush]) w = some w') (htop : w'.top ≤ cap) :
    w'.file ≠ w.file ++ old ++ (text ++ texts es) := by
  intro hfile
  obtain ⟨w₁, hprint, hrest⟩ := Option.bind_eq_some_iff.mp h
  obtain ⟨hbc, hsame, head, hhead⟩ := snprintf_full hw hfull hprint
  obtain ⟨hne, hlast⟩ := hes text List.mem_cons_self
  have hcap : 0 < cap := Nat.lt_of_le_of_lt (Nat.zero_le _) hw.room
  have hflush : ∀ {rest : List Event} {w₂ : Writer cap}, w₁.flush = some w₂ →
      run rest w₂ = some w' → False := by
    intro rest w₂ hflush hrun
    have hprefix := (run_grows hrun).1
    rw [flush_full hbc hcap hhead hflush, hsame, hfile, List.append_assoc,
      List.prefix_append_right_inj, ← List.append_assoc] at hprefix
    have hlen : (head ++ [0]).length = (old ++ text).length := by
      rw [← hhead, List.length_take, w₁.strbuf.2, List.length_append]
      omega
    have hwithin := List.prefix_of_prefix_length_le hprefix (List.prefix_append _ _) hlen.le
    have heq := hwithin.eq_of_length hlen
    have hend := congrArg List.getLast? heq
    rw [List.getLast?_append_of_ne_nil _ (List.cons_ne_nil _ _),
      List.getLast?_append_of_ne_nil _ hne] at hend
    exact hlast hend.symm
  cases es with
  | nil =>
    obtain ⟨w₂, hstep, hrun⟩ := Option.bind_eq_some_iff.mp hrest
    exact hflush hstep hrun
  | cons e es =>
    obtain ⟨w₂, hstep, hrun⟩ := Option.bind_eq_some_iff.mp hrest
    cases e with
    | print t =>
      obtain ⟨ht, -⟩ := hes t (List.mem_cons_of_mem _ List.mem_cons_self)
      have hpos := List.length_pos_iff.mpr ht
      have hbehind := snprintf_top hstep
      have hmono := (run_grows hrun).2
      omega
    | flush => exact hflush hstep hrun

/-- The index keeps to the limit and the file gets every text exactly when the texts fit. -/
theorem run_whole_iff {es : List Event} (hes : Plain es) {w : Writer cap} {old : Bytes}
    (hw : Holds w old) :
    (∃ w', run (es ++ [.flush]) w = some w' ∧ w'.top ≤ cap ∧
      w'.file = w.file ++ old ++ texts es) ↔ Fits cap old.length es := by
  induction es generalizing w old with
  | nil =>
    obtain ⟨w', hflush, hfile, hw'⟩ := flush_holds hw
    refine iff_of_true ⟨w', ?_, hw'.top, ?_⟩ trivial
    · rw [List.nil_append, run, Event.run, hflush]
      rfl
    · rw [hfile, texts, List.append_nil]
  | cons e es ih =>
    cases e with
    | print text =>
      rcases Nat.lt_trichotomy (old.length + text.length) cap with hroom | hfull | hover
      · obtain ⟨w₁, hprint, hfile, hw₁⟩ := snprintf_holds hw hroom
        have hrun : run (.print text :: es ++ [.flush]) w = run (es ++ [.flush]) w₁ := by
          rw [List.cons_append, run, Event.run, hprint, Option.bind_some]
        have hrest := ih hes.tail hw₁
        rw [List.length_append, hfile] at hrest
        rw [hrun, texts, Fits, and_iff_right hroom, ← hrest]
        simp only [List.append_assoc]
      · refine iff_of_false ?_ fun hfits => Nat.ne_of_lt hfits.1 hfull
        rintro ⟨w', hrun, htop, hfile⟩
        exact full_loses hw hes hfull hrun htop hfile
      · refine iff_of_false ?_ fun hfits => Nat.lt_asymm hfits.1 hover
        rintro ⟨w', hrun, htop, -⟩
        obtain ⟨w₁, hprint, hrest⟩ := Option.bind_eq_some_iff.mp hrun
        have hbehind := snprintf_top hprint
        have hmono := (run_grows hrest).2
        have hbc := hw.bc
        omega
    | flush =>
      obtain ⟨w₁, hflush, hfile, hw₁⟩ := flush_holds hw
      have hrun : run (.flush :: es ++ [.flush]) w = run (es ++ [.flush]) w₁ := by
        rw [List.cons_append, run, Event.run, hflush, Option.bind_some]
      have hrest := ih hes.tail hw₁
      rw [hfile, List.append_nil] at hrest
      rw [hrun, texts, Fits]
      exact hrest

/-- What is printed by one program and then by another. -/
def andThen (e e' : Option (List Event)) : Option (List Event) :=
  e.bind fun es => e'.map fun es' => es ++ es'

variable {α : Type}

/-- One round for every element of a list. -/
def each (f : α → Writer cap → Option (Writer cap)) : List α → Writer cap → Option (Writer cap)
  | [], w => some w
  | a :: l, w => (f a w).bind (each f l)

def eachEvents (e : α → Option (List Event)) : List α → Option (List Event)
  | [] => some []
  | a :: l => andThen (e a) (eachEvents e l)

/-- The program does what the events say, and nothing else. -/
def Prints (f : Writer cap → Option (Writer cap)) (e : Option (List Event)) : Prop :=
  (∀ w, f w = e.bind fun es => run es w) ∧ ∀ es ∈ e, Plain es

variable {f g : Writer cap → Option (Writer cap)} {e e' : Option (List Event)}

theorem andThen_eq_some_iff {es : List Event} :
    andThen e e' = some es ↔ ∃ a b, e = some a ∧ e' = some b ∧ es = a ++ b := by
  constructor
  · intro h
    obtain ⟨a, ha, h⟩ := Option.bind_eq_some_iff.mp h
    obtain ⟨b, hb, rfl⟩ := Option.map_eq_some_iff.mp h
    exact ⟨a, b, ha, hb, rfl⟩
  · rintro ⟨a, b, rfl, rfl, rfl⟩
    rfl

theorem prints_nothing : Prints (some : Writer cap → _) (some []) :=
  ⟨fun _ => rfl, fun _ h => by cases h; exact plain_nil⟩

theorem prints_text {text : Bytes} (hne : text ≠ []) (hlast : text.getLast? ≠ some 0) :
    Prints (fun w : Writer cap => w.snprintf text) (some [.print text]) := by
  refine ⟨fun w => ?_, fun _ h => by cases h; exact plain_print hne hlast⟩
  rw [Option.bind_some, run, Event.run]
  exact (Option.bind_fun_some _).symm

theorem prints_flush : Prints (Writer.flush : Writer cap → _) (some [.flush]) :=
  ⟨fun _ => (Option.bind_fun_some _).symm, fun _ h => by cases h; exact plain_flush⟩

theorem prints_none : Prints (fun _ : Writer cap => none) none :=
  ⟨fun _ => rfl, fun _ h => by cases h⟩

theorem Prints.andThen (hf : Prints f e) (hg : Prints g e') :
    Prints (fun w => (f w).bind g) (andThen e e') := by
  refine ⟨fun w => ?_, fun es hes => ?_⟩
  · change (f w).bind g = _
    rw [hf.1 w, TextBuffer.andThen, Option.bind_assoc, Option.bind_assoc]
    refine Option.bind_congr fun es _ => ?_
    rw [funext hg.1]
    cases e' with
    | none => exact Option.bind_fun_none _
    | some es' => exact (run_append es es' w).symm
  · obtain ⟨a, b, rfl, rfl, rfl⟩ := andThen_eq_some_iff.mp hes
    exact (hf.2 a rfl).append (hg.2 b rfl)

theorem Prints.each {f : α → Writer cap → Option (Writer cap)} {e : α → Option (List Event)}
    (h : ∀ a, Prints (f a) (e a)) (l : List α) : Prints (each f l) (eachEvents e l) := by
  induction l with
  | nil => exact prints_nothing
  | cons a l ih => exact (h a).andThen ih

/-- Rounds of some length without a flush add up. -/
theorem eachEvents_length {e : α → Option (List Event)} {k : Nat} {l : List α}
    (h : ∀ a ∈ l, ∃ es, e a = some es ∧ Event.flush ∉ es ∧ k ≤ (texts es).length) :
    ∃ es, eachEvents e l = some es ∧ Event.flush ∉ es ∧ k * l.length ≤ (texts es).length := by
  induction l with
  | nil => exact ⟨[], rfl, List.not_mem_nil, Nat.le_refl _⟩
  | cons a l ih =>
    obtain ⟨ha, hl⟩ := List.forall_mem_cons.mp h
    obtain ⟨es, he, hflush, hlen⟩ := ha
    obtain ⟨es', he', hflush', hlen'⟩ := ih hl
    refine ⟨es ++ es', andThen_eq_some_iff.mpr ⟨es, es', he, he', rfl⟩, ?_, ?_⟩
    · rw [List.mem_append, not_or]
      exact ⟨hflush, hflush'⟩
    · rw [texts_append, List.length_append, List.length_cons, Nat.mul_succ]
      omega

end TextBuffer
