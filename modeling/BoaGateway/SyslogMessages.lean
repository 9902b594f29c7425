import BoaGateway.SyslogScan

/-!
# The messages of a datagram in the log

The messages of a datagram end at its zero bytes. Each of their bytes is to be logged once, in
order and with the priority of its message. Behind the zero byte of a message one more byte is
skipped, a line that is full drops one, and a message that is filtered out ends the function, so
this works when the messages stand alone, are followed by empty ones or fill their line exactly.
-/

namespace SyslogMessages

open ByteBlocks Texts SyslogScan

/-- The messages, each up to its zero byte. -/
def messages : List Cell → List (List Cell)
  | [] => []
  | c :: p => if c.1 = 0 then [] :: messages p else (messages p).modifyHead (c :: ·)

/-- The number in front of a message, and its text. -/
def priority : List Cell → Option (Nat × List Cell)
  | [] => none
  | c :: p =>
    if c.1 = 60 then
      match p.dropWhile isDigit with
      | [] => none
      | g :: text =>
        if g.1 = 62 then some (number 0 (p.takeWhile isDigit), text) else none
    else none

/-- A number that is no priority counts as the usual one. -/
def ownPri (v : Nat) : Nat := if v < 1024 then v else logUserNotice

/-- What is to be logged of a message. -/
def due (logLevel : Int) (m : List Cell) : List (Nat × Cell) :=
  match priority m with
  | some (v, text) => if logLevel < (v % 8 : Nat) then [] else text.map (ownPri v, ·)
  | none => m.map (logUserNotice, ·)

def expected (logLevel : Int) (ms : List (List Cell)) : List (Nat × Cell) :=
  ms.flatMap (due logLevel)

/-- The bytes of a line with its priority. -/
def bytesOf (rec : Record) : List (Nat × Cell) := rec.src.map (rec.pri, ·)

/-- The line shows its own priority and, with the blank behind the time stamp, all of its text. -/
structure Complete (rec : Record) : Prop where
  logpri : rec.logpri = some rec.pri
  text : rec.timestamp ++ 32 :: rec.msg = textOf rec.src

/-- Every byte of the messages is logged, each line with bytes of one message. -/
structure Logged (logLevel : Int) (ms : List (List Cell)) (log : List Record) : Prop where
  bytes : log.flatMap bytesOf = expected logLevel ms
  lines : ∀ rec ∈ log, Complete rec ∧ ∃ m ∈ ms, rec.src <:+: m

/-- The function comes to its end within its objects, and the datagram is logged. -/
def Right (logLevel : Int) (datagram : Bytes) : Prop :=
  ∀ stack logpri, ∃ log, serveConnection logLevel stack logpri datagram = some log ∧
    Logged logLevel (messages (datagram ++ [0]).zipIdx) log

/-- The text fits into one line, has a blank behind the time stamp, and its priority is not 0. -/
def Loggable (pri : Nat) (text : List Cell) : Prop :=
  text = [] ∨ pri ≠ 0 ∧ (textOf text).length ≤ maxLine ∧ (textOf text)[15]? = some 32

def Nothing (logLevel : Int) (ms : List (List Cell)) : Prop := ∀ m ∈ ms, due logLevel m = []

/-- In a text without its first byte the function finds a `<` with a number that it filters. -/
def Stops (logLevel : Int) (t : List Cell) : Prop :=
  ∃ a c b, t = a ++ c :: b ∧ (∀ d ∈ a, d.1 ≠ 60) ∧ c.1 = 60 ∧ (textOf a).length < maxLine ∧
    number 0 (b.takeWhile isDigit) < 2 ^ 31 ∧
    logLevel < (number 0 (b.takeWhile isDigit) % 8 : Nat)

mutual

/-- The messages are logged, from one that is read from its first byte; `priSet` is true behind a
message with a priority that fills its line. -/
def Served (logLevel : Int) : Bool → List (List Cell) → Prop
  | _, [] => True
  | priSet, m :: ms =>
    match priority m with
    | some (v, text) =>
      priSet = false ∧ v < 2 ^ 31 ∧
        if logLevel < (v % 8 : Nat) then Nothing logLevel ms
        else
          Loggable (ownPri v) text ∧
            if (textOf text).length = maxLine then Served logLevel true ms else Next logLevel ms
    | none =>
      (priSet = false → ∀ c ∈ m, c.1 ≠ 60) ∧ Loggable logUserNotice m ∧
        if (textOf m).length = maxLine then Served logLevel priSet ms else Next logLevel ms

/-- The same behind a message that ends inside of its line: the next one loses its first byte. -/
def Next (logLevel : Int) : List (List Cell) → Prop
  | [] => True
  | [] :: ms => Served logLevel false ms
  | (c :: t) :: ms => due logLevel (c :: t) = [] ∧ Stops logLevel t ∧ Nothing logLevel ms

end

theorem messages_append {m r : List Cell} {z : Cell} (hm : ∀ c ∈ m, c.1 ≠ 0) (hz : z.1 = 0) :
    messages (m ++ z :: r) = m :: messages r := by
  induction m with
  | nil => rw [List.nil_append, messages, if_pos hz]
  | cons c m ih =>
    obtain ⟨hc, hm⟩ := List.forall_mem_cons.mp hm
    rw [List.cons_append, messages, if_neg hc, ih hm, List.modifyHead_cons]

/-- The bytes end with a zero byte. -/
def Terminated (p : List Cell) : Prop := ∀ c ∈ p.getLast?, c.1 = 0

theorem Terminated.suffix {p r : List Cell} (h : Terminated p) (hr : r <:+ p) : Terminated r := by
  obtain ⟨a, rfl⟩ := hr
  intro c hc
  apply h c
  rw [List.getLast?_append_of_ne_nil]
  · exact hc
  · rintro rfl
    cases hc

/-- The first cell with some byte. -/
theorem split_first {v : UInt8} {p : List Cell} (h : ∃ c ∈ p, c.1 = v) :
    ∃ a c b, p = a ++ c :: b ∧ (∀ d ∈ a, d.1 ≠ v) ∧ c.1 = v := by
  induction p with
  | nil =>
    obtain ⟨c, hc, -⟩ := h
    cases hc
  | cons d p ih =>
    by_cases hd : d.1 = v
    · exact ⟨[], d, p, rfl, nofun, hd⟩
    · obtain ⟨c, hc, hcv⟩ := h
      have hmem : c ∈ p := (List.mem_cons.mp hc).resolve_left fun heq => hd (heq ▸ hcv)
      obtain ⟨a, e, b, rfl, ha, he⟩ := ih ⟨c, hmem, hcv⟩
      exact ⟨d :: a, e, b, rfl, List.forall_mem_cons.mpr ⟨hd, ha⟩, he⟩

theorem Terminated.split {p : List Cell} (h : Terminated p) (hne : p ≠ []) :
    ∃ m z r, p = m ++ z :: r ∧ (∀ c ∈ m, c.1 ≠ 0) ∧ z.1 = 0 :=
  split_first ⟨p.getLast hne, List.getLast_mem hne, h _ (List.getLast?_eq_some_getLast hne)⟩

theorem priority_eq_some_iff {m text : List Cell} {v : Nat} :
    priority m = some (v, text) ↔ ∃ c ds g, m = c :: (ds ++ g :: text) ∧ c.1 = 60 ∧
      (∀ d ∈ ds, isDigit d = true) ∧ g.1 = 62 ∧ v = number 0 ds := by
  constructor
  · intro h
    cases m with
    | nil => cases h
    | cons c p =>
      rw [priority] at h
      split at h
      · rename_i hc
        split at h
        · cases h
        · rename_i g t hdrop
          split at h
          · rename_i hg
            cases h
            refine ⟨c, _, g, ?_, hc, fun d hd => List.mem_takeWhile_imp hd, hg, rfl⟩
            rw [← hdrop, List.takeWhile_append_dropWhile]
          · cases h
      · cases h
  · rintro ⟨c, ds, g, rfl, hc, hds, hg, rfl⟩
    have hnot : ¬ isDigit g = true := by simp [isDigit, hg]
    have hdrop : (ds ++ g :: text).dropWhile isDigit = g :: text := by
      rw [List.dropWhile_append_of_pos hds, List.dropWhile_cons_of_neg hnot]
    have htake : (ds ++ g :: text).takeWhile isDigit = ds := by
      rw [List.takeWhile_append_of_pos hds, List.takeWhile_cons_of_neg hnot, List.append_nil]
    simp only [priority, hc, hdrop, hg, htake, if_true]

theorem due_mem {logLevel : Int} {m : List Cell} {e : Nat × Cell} (h : e ∈ due logLevel m) :
    e.2 ∈ m ∧ ∀ v text, priority m = some (v, text) → e.2 ∈ text := by
  rw [due] at h
  split at h
  · rename_i v text hpri
    split at h
    · cases h
    · obtain ⟨c, hc, rfl⟩ := List.mem_map.mp h
      obtain ⟨d, ds, g, rfl, -⟩ := priority_eq_some_iff.mp hpri
      refine ⟨by simp [hc], fun v' text' heq => ?_⟩
      cases hpri.symm.trans heq
      exact hc
  · rename_i hpri
    obtain ⟨c, hc, rfl⟩ := List.mem_map.mp h
    refine ⟨hc, fun v text heq => ?_⟩
    cases hpri.symm.trans heq

theorem mem_messages {p m : List Cell} (h : m ∈ messages p) : m ⊆ p := by
  induction p generalizing m with
  | nil => cases h
  | cons c p ih =>
    rw [messages] at h
    split at h
    · rcases List.mem_cons.mp h with rfl | h
      · exact List.nil_subset _
      · exact List.Subset.trans (ih h) (List.subset_cons_self c p)
    · cases hms : messages p with
      | nil =>
        rw [hms] at h
        cases h
      | cons m' ms =>
        rw [hms, List.modifyHead_cons] at h
        rw [hms] at ih
        rcases List.mem_cons.mp h with rfl | h
        · exact List.cons_subset_cons c (ih List.mem_cons_self)
        · exact List.Subset.trans (ih (List.mem_cons_of_mem _ h)) (List.subset_cons_self c p)

theorem expected_mem {logLevel : Int} {p : List Cell} {e : Nat × Cell}
    (h : e ∈ expected logLevel (messages p)) : e.2 ∈ p := by
  obtain ⟨m, hm, he⟩ := List.mem_flatMap.mp h
  exact mem_messages hm (due_mem he).1

theorem expected_nil_iff {logLevel : Int} {ms : List (List Cell)} :
    expected logLevel ms = [] ↔ Nothing logLevel ms := List.flatMap_eq_nil_iff

theorem expected_cons {logLevel : Int} (m : List Cell) (ms : List (List Cell)) :
    expected logLevel (m :: ms) = due logLevel m ++ expected logLevel ms := rfl

theorem timestamp_eq {text : Bytes} (hnul : (0 : UInt8) ∉ text) (stack : Bytes) :
    cstr ((text ++ 0 :: stack).set 15 0) = text.take 15 := by
  by_cases hlong : 15 < text.length
  · have hsplit : text = text.take 15 ++ text[15] :: text.drop 16 := by
      rw [List.getElem_cons_drop, List.take_append_drop]
    have hlen : (text.take 15).length = 15 := List.length_take_of_le hlong.le
    have htake : (0 : UInt8) ∉ text.take 15 := fun h => hnul (List.mem_of_mem_take h)
    rw [List.set_append_left _ _ hlong]
    nth_rewrite 1 [hsplit]
    rw [List.set_append_right _ _ (by omega), hlen, List.append_assoc]
    exact cstr_nul_free htake _
  · rw [List.take_of_length_le (by omega), List.set_append_right _ _ (by omega)]
    cases hk : 15 - text.length with
    | zero => exact cstr_nul_free hnul _
    | succ k => exact cstr_nul_free hnul _

/-- A line that shows all of its text. -/
theorem logMessage_complete {pri : Nat} {text : List Cell} {stack : Block 1025}
    {logpri : Option Nat} (hnul : ∀ c ∈ text, c.1 ≠ 0) (hpri : pri ≠ 0)
    (hblank : (textOf text)[15]? = some 32) :
    ∃ rec, logMessage pri (Line.empty.append text) stack logpri = some rec ∧ Complete rec := by
  have hzero := textOf_nul_free hnul
  obtain ⟨hlong, hget⟩ := List.getElem?_eq_some_iff.mp hblank
  have hdrop (s : Bytes) : (textOf text ++ 0 :: s).drop 16 = (textOf text).drop 16 ++ 0 :: s :=
    List.drop_append_of_le_length hlong
  have hmsg : (0 : UInt8) ∉ (textOf text).drop 16 := fun h => hzero (List.mem_of_mem_drop h)
  have htext : (Line.empty.append text).text = textOf text := List.nil_append _
  refine ⟨_, if_pos ?_, ?_, ?_⟩
  · rw [htext, hdrop]
    exact List.mem_append_right _ List.mem_cons_self
  · exact if_neg hpri
  · change cstr _ ++ 32 :: cstr _ = textOf _
    rw [htext, timestamp_eq hzero, hdrop, cstr_nul_free hmsg, ← hget, List.getElem_cons_drop,
      List.take_append_drop]
    rfl

theorem complete_blank {pri : Nat} {text : List Cell} {stack : Block 1025} {logpri : Option Nat}
    {rec : Record} (hnul : ∀ c ∈ text, c.1 ≠ 0)
    (h : logMessage pri (Line.empty.append text) stack logpri = some rec)
    (hcomplete : Complete rec) : (textOf text)[15]? = some 32 := by
  have hzero := textOf_nul_free hnul
  have htext : (Line.empty.append text).text = textOf text := List.nil_append _
  have hshown := hcomplete.text
  unfold logMessage at h
  dsimp only at h
  split at h
  · cases h
    change cstr _ ++ 32 :: cstr _ = textOf text at hshown
    rw [htext, timestamp_eq hzero] at hshown
    have hlen := congrArg List.length hshown
    simp only [List.length_append, List.length_take, List.length_cons] at hlen
    have htake : ((textOf text).take 15).length = 15 := List.length_take_of_le (by omega)
    rw [← hshown, List.getElem?_append_right (by omega), htake]
    rfl
  · cases h

theorem readPri_text {b r : List Cell} {z : Cell} (hz : z.1 = 0) :
    readPri 0 (b ++ z :: r) =
      if number 0 (b.takeWhile isDigit) < 2 ^ 31 then
        some (number 0 (b.takeWhile isDigit), b.dropWhile isDigit ++ z :: r)
      else none := by
  have hdigits : ∀ c ∈ b.takeWhile isDigit, isDigit c = true := fun c hc =>
    List.mem_takeWhile_imp hc
  have hzd : isDigit z = false := by simp [isDigit, hz]
  have hsplit : b ++ z :: r = b.takeWhile isDigit ++ (b.dropWhile isDigit ++ z :: r) := by
    rw [← List.append_assoc, List.takeWhile_append_dropWhile]
  rw [hsplit]
  cases hrest : b.dropWhile isDigit with
  | nil => exact readPri_digits hdigits hzd (by decide)
  | cons g t =>
    have hne : b.dropWhile isDigit ≠ [] := by simp [hrest]
    have hg : isDigit g = false := by
      have hhead := List.head_dropWhile_not isDigit hne
      simpa [hrest] using hhead
    exact readPri_digits hdigits hg (by decide)

section

variable {logLevel : Int} {priSet priSet' : Bool} {pri : Nat} {p text r : List Cell} {z : Cell}
  {stack : Nat → Block 1025} {logpri : Option Nat}

/-- A text that fits is read up to its zero byte; when it fills the line, the zero byte is
skipped in place of the byte behind it, and `pri_set` stays as it is. -/
theorem scan_text (hnul : ∀ c ∈ text, c.1 ≠ 0) (hlt : priSet = false → ∀ c ∈ text, c.1 ≠ 60)
    (hz : z.1 = 0) (hfit : (textOf text).length ≤ maxLine) :
    ∃ rest, scan logLevel priSet pri .empty (text ++ z :: r) =
        some (.line pri (if (textOf text).length = maxLine then priSet else false)
          (Line.empty.append text) rest) ∧
      rest.tail = if (textOf text).length = maxLine then r else r.tail := by
  have htext : (Line.empty.append text).text = textOf text := List.nil_append _
  rw [scan_copy hnul hlt (by rwa [Line.empty, List.length_nil, Nat.zero_add])]
  by_cases hfull : (textOf text).length = maxLine
  · rw [if_pos hfull, if_pos hfull]
    exact ⟨z :: r, scan_of_full (by rw [htext, hfull]), rfl⟩
  · rw [if_neg hfull, if_neg hfull]
    exact ⟨r, scan_nul (by rw [htext]; omega) hz, rfl⟩

/-- The line of a message and what is logged behind it. -/
theorem logged_line {m rest : List Cell} {ms : List (List Cell)} (hlong : 2 ≤ p.length)
    (hscan : scan logLevel priSet logUserNotice .empty p =
      some (.line pri priSet' (Line.empty.append text) rest))
    (hnul : ∀ c ∈ text, c.1 ≠ 0) (hloggable : Loggable pri text)
    (hdue : due logLevel m = text.map (pri, ·)) (hpart : text <:+: m)
    (hrest : ∀ lp, ∃ log, serve logLevel stack priSet' lp rest.tail = some log ∧
      Logged logLevel ms log) :
    ∃ log, serve logLevel stack priSet logpri p = some log ∧ Logged logLevel (m :: ms) log := by
  have htext : (Line.empty.append text).text = textOf text := List.nil_append _
  have hms {log : List Record} (hlog : Logged logLevel ms log) :
      ∀ rec ∈ log, Complete rec ∧ ∃ m' ∈ m :: ms, rec.src <:+: m' := by
    intro rec hrec
    obtain ⟨hcomplete, m', hm', hsrc⟩ := hlog.lines rec hrec
    exact ⟨hcomplete, m', List.mem_cons_of_mem _ hm', hsrc⟩
  rw [serve_line hlong hscan, htext]
  by_cases hnil : text = []
  · subst hnil
    obtain ⟨log, hserve, hlog⟩ := hrest logpri
    refine ⟨log, by simpa [maxLine] using hserve, ?_, hms hlog⟩
    rw [expected_cons, hdue, hlog.bytes]
    rfl
  · obtain ⟨hpri, hle, hblank⟩ := hloggable.resolve_left hnil
    obtain ⟨rec, hrec, hcomplete⟩ : ∃ rec, logMessage pri (Line.empty.append text)
        (stack p.length) logpri = some rec ∧ Complete rec :=
      logMessage_complete hnul hpri hblank
    obtain ⟨hrecPri, hrecSrc, -⟩ := logMessage_eq_some hrec
    obtain ⟨log, hserve, hlog⟩ := hrest rec.logpri
    rw [if_neg (Nat.not_lt_of_le hle), if_neg (mt textOf_eq_nil_iff.mp hnil), hrec]
    have hsrc : rec.src = text := hrecSrc.trans (List.nil_append _)
    refine ⟨rec :: log, by simp [hserve], ?_, List.forall_mem_cons.mpr ⟨⟨hcomplete, m, ?_⟩, hms hlog⟩⟩
    · rw [List.flatMap_cons, hlog.bytes, expected_cons, hdue, bytesOf, hrecPri, hsrc]
    · exact ⟨List.mem_cons_self, hsrc ▸ hpart⟩

theorem scan_stops {t : List Cell} (hnul : ∀ c ∈ t, c.1 ≠ 0) (hz : z.1 = 0)
    (h : Stops logLevel t) :
    scan logLevel false pri .empty (t ++ z :: r) = some .returned := by
  obtain ⟨a, c, b, rfl, ha, hc, hroom, hnumber, hlevel⟩ := h
  have htext : (Line.empty.append a).text = textOf a := List.nil_append _
  have hnula : ∀ d ∈ a, d.1 ≠ 0 := fun d hd => hnul d (List.mem_append_left _ hd)
  rw [List.append_assoc, List.cons_append, scan_copy hnula (fun _ => ha)
    (by rw [Line.empty, List.length_nil]; omega), scan_pri (by rwa [htext]) hc, readPri_text hz,
    if_pos hnumber]
  exact if_pos hlevel

theorem due_text {c g : Cell} {ds : List Cell} (hc : c.1 = 60) (hds : ∀ d ∈ ds, isDigit d = true)
    (hg : g.1 = 62) : due logLevel (c :: (ds ++ g :: text)) =
      if logLevel < (number 0 ds % 8 : Nat) then [] else text.map (ownPri (number 0 ds), ·) := by
  have hpri : priority (c :: (ds ++ g :: text)) = some (number 0 ds, text) :=
    priority_eq_some_iff.mpr ⟨c, ds, g, rfl, hc, hds, hg, rfl⟩
  rw [due, hpri]

/-- Behind the digits of a priority the text begins. -/
theorem scan_priority {c g : Cell} {ds : List Cell} (hc : c.1 = 60)
    (hds : ∀ d ∈ ds, isDigit d = true) (hg : g.1 = 62) (q : List Cell) :
    scan logLevel false pri .empty (c :: (ds ++ g :: text) ++ q) =
      if number 0 ds < 2 ^ 31 then
        if logLevel < (number 0 ds % 8 : Nat) then some .returned
        else scan logLevel true (ownPri (number 0 ds)) .empty (text ++ q)
      else none := by
  have hgd : isDigit g = false := by simp [isDigit, hg]
  rw [List.cons_append, List.append_assoc, List.cons_append, scan_pri (by decide) hc,
    readPri_digits hds hgd (by decide)]
  by_cases hfit : number 0 ds < 2 ^ 31
  · rw [if_pos hfit, if_pos hfit]
    rfl
  · rw [if_neg hfit, if_neg hfit]

/-- A message that is cut off behind its first byte. -/
theorem cut_message {c : Cell} (hterm : Terminated (c :: r)) (hc : c.1 ≠ 0) :
    ∃ t z r', r = t ++ z :: r' ∧ (∀ d ∈ c :: t, d.1 ≠ 0) ∧ z.1 = 0 ∧
      messages (c :: r) = (c :: t) :: messages r' := by
  obtain ⟨m, z, r', hr, hm, hz⟩ := hterm.split (by simp)
  cases m with
  | nil =>
    cases hr
    exact absurd hz hc
  | cons d t =>
    cases hr
    exact ⟨t, z, r', rfl, hm, hz, messages_append hm hz⟩

theorem logged_next (hterm : Terminated r) (h : Next logLevel (messages r))
    (hserved : Served logLevel false (messages r.tail) →
      ∃ log, serve logLevel stack false logpri r.tail = some log ∧
        Logged logLevel (messages r.tail) log) :
    ∃ log, serve logLevel stack false logpri r.tail = some log ∧
      Logged logLevel (messages r) log := by
  rcases r with _ | ⟨c, r⟩
  · exact ⟨[], serve_short (by decide), rfl, nofun⟩
  by_cases hc : c.1 = 0
  · rw [messages, if_pos hc] at h ⊢
    rw [Next] at h
    obtain ⟨log, hserve, hlog⟩ := hserved h
    refine ⟨log, hserve, hlog.bytes, fun rec hrec => ?_⟩
    obtain ⟨hcomplete, m, hm, hsrc⟩ := hlog.lines rec hrec
    exact ⟨hcomplete, m, List.mem_cons_of_mem _ hm, hsrc⟩
  · obtain ⟨t, z, r, rfl, hnul, hz, hms⟩ := cut_message hterm hc
    rw [hms, Next] at h
    obtain ⟨hdue, hstops, hnothing⟩ := h
    have hlong : 2 ≤ (t ++ z :: r).length := by
      obtain ⟨a, d, b, rfl, -⟩ := hstops
      simp only [List.length_append, List.length_cons]
      omega
    have hscan : scan logLevel false logUserNotice .empty (t ++ z :: r) = some .returned :=
      scan_stops (List.forall_mem_cons.mp hnul).2 hz hstops
    refine ⟨[], serve_returned hlong hscan, ?_, nofun⟩
    rw [hms, List.flatMap_nil, eq_comm, expected_nil_iff]
    exact List.forall_mem_cons.mpr ⟨hdue, hnothing⟩

theorem Loggable.fits (h : Loggable pri text) : (textOf text).length ≤ maxLine := by
  rcases h with rfl | ⟨-, hle, -⟩
  · exact Nat.zero_le _
  · exact hle

theorem Terminated.short (hterm : Terminated p) (h : p.length < 2) :
    messages p = [] ∨ messages p = [[]] := by
  rcases p with _ | ⟨c, _ | ⟨d, p⟩⟩
  · exact Or.inl rfl
  · have hc : c.1 = 0 := hterm c rfl
    rw [messages, if_pos hc]
    exact Or.inr rfl
  · exact absurd h (by simp)

theorem logged_of_served (hterm : Terminated p) (h : Served logLevel priSet (messages p)) :
    ∃ log, serve logLevel stack priSet logpri p = some log ∧ Logged logLevel (messages p) log := by
  induction hn : p.length using Nat.strong_induction_on generalizing p priSet logpri with
  | _ n ih =>
    by_cases hshort : p.length < 2
    · refine ⟨[], serve_short hshort, ?_, nofun⟩
      rw [List.flatMap_nil, eq_comm, expected_nil_iff]
      intro m hm
      rcases hterm.short hshort with hms | hms
      · rw [hms] at hm
        cases hm
      · rw [hms, List.mem_singleton] at hm
        subst hm
        rfl
    have hlong := Nat.not_lt.mp hshort
    obtain ⟨m, z, r, rfl, hm, hz⟩ := hterm.split (by rintro rfl; exact hshort (by decide))
    have htermr : Terminated r := hterm.suffix ⟨m ++ [z], by simp⟩
    rw [messages_append hm hz] at h ⊢
    rw [List.length_append, List.length_cons] at hn
    -- what is logged behind the message
    have hrest {priSet' : Bool} {k : Nat} {rest : List Cell}
        (htail : rest.tail = if k = maxLine then r else r.tail)
        (h : if k = maxLine then Served logLevel priSet' (messages r)
          else Next logLevel (messages r)) (lp : Option Nat) :
        ∃ log, serve logLevel stack (if k = maxLine then priSet' else false) lp rest.tail =
          some log ∧ Logged logLevel (messages r) log := by
      rw [htail]
      split
      · rename_i hk
        rw [if_pos hk] at h
        exact ih r.length (by omega) htermr h rfl
      · rename_i hk
        rw [if_neg hk] at h
        refine logged_next htermr h fun hserved => ?_
        refine ih r.tail.length ?_ (htermr.suffix (List.tail_suffix r)) hserved rfl
        rw [List.length_tail]
        omega
    rw [Served] at h
    cases hpri : priority m with
    | none =>
      simp only [hpri] at h
      obtain ⟨hlt, hloggable, hbehind⟩ := h
      obtain ⟨rest, hscan, htail⟩ := scan_text hm hlt hz hloggable.fits
      have hdue : due logLevel m = m.map (logUserNotice, ·) := by rw [due, hpri]
      exact logged_line hlong hscan hm hloggable hdue List.infix_rfl (hrest htail hbehind)
    | some res =>
      obtain ⟨v, text⟩ := res
      simp only [hpri] at h
      obtain ⟨rfl, hv, h⟩ := h
      obtain ⟨c, ds, g, rfl, hc, hds, hg, rfl⟩ := priority_eq_some_iff.mp hpri
      have hscan : scan logLevel false logUserNotice .empty (c :: (ds ++ g :: text) ++ z :: r) = _ :=
        scan_priority hc hds hg (z :: r)
      have hdue : due logLevel (c :: (ds ++ g :: text)) = _ := due_text hc hds hg
      rw [if_pos hv] at hscan
      by_cases hlevel : logLevel < (number 0 ds % 8 : Nat)
      · rw [if_pos hlevel] at h hscan hdue
        refine ⟨[], serve_returned hlong hscan, ?_, nofun⟩
        rw [List.flatMap_nil, eq_comm, expected_nil_iff]
        exact List.forall_mem_cons.mpr ⟨hdue, h⟩
      · rw [if_neg hlevel] at h hscan hdue
        obtain ⟨hloggable, hbehind⟩ := h
        have hnul : ∀ d ∈ text, d.1 ≠ 0 := fun d hd => hm d (by simp [hd])
        have hlt : true = false → ∀ d ∈ text, d.1 ≠ 60 := nofun
        obtain ⟨rest, htext, htail⟩ := scan_text hnul hlt hz hloggable.fits
        have hpart : text <:+: c :: (ds ++ g :: text) := ⟨c :: (ds ++ [g]), [], by simp⟩
        exact logged_line hlong (hscan.trans htext) hnul hloggable hdue hpart
          (hrest htail hbehind)

/-- A cell is in the log. -/
def InLog (log : List Record) (c : Cell) : Prop := ∃ rec ∈ log, c ∈ rec.src

theorem inLog_of_expected {log : List Record} {ms : List (List Cell)}
    (hbytes : log.flatMap bytesOf = expected logLevel ms) {e : Nat × Cell}
    (h : e ∈ expected logLevel ms) : InLog log e.2 := by
  rw [← hbytes] at h
  obtain ⟨rec, hrec, he⟩ := List.mem_flatMap.mp h
  obtain ⟨c, hc, rfl⟩ := List.mem_map.mp he
  exact ⟨rec, hrec, hc⟩

theorem expected_of_inLog {log : List Record} {ms : List (List Cell)}
    (hbytes : log.flatMap bytesOf = expected logLevel ms) {c : Cell} (h : InLog log c) :
    ∃ e ∈ expected logLevel ms, e.2 = c := by
  obtain ⟨rec, hrec, hc⟩ := h
  rw [← hbytes]
  exact ⟨(rec.pri, c), List.mem_flatMap.mpr ⟨rec, hrec, List.mem_map.mpr ⟨c, hc, rfl⟩⟩, rfl⟩

/-- A line that is not empty is logged, and then what is behind it. -/
theorem line_logged {used rest : List Cell} {log : List Record} (hlong : 2 ≤ p.length)
    (hscan : scan logLevel priSet logUserNotice .empty p =
      some (.line pri priSet' (Line.empty.append used) rest)) (hne : used ≠ [])
    (h : serve logLevel stack priSet logpri p = some log) :
    (textOf used).length ≤ maxLine ∧ ∃ rec log', log = rec :: log' ∧
      logMessage pri (Line.empty.append used) (stack p.length) logpri = some rec ∧
      serve logLevel stack priSet' rec.logpri rest.tail = some log' := by
  have htext : (Line.empty.append used).text = textOf used := List.nil_append _
  rw [serve_line hlong hscan, htext, if_neg (mt textOf_eq_nil_iff.mp hne)] at h
  split at h
  · cases h
  · rename_i hle
    split at h
    · cases h
    · rename_i rec hrec
      obtain ⟨log', hserve, rfl⟩ := Option.map_eq_some_iff.mp h
      exact ⟨Nat.not_lt.mp hle, rec, log', rfl, hrec, hserve⟩

/-- What a round logs is from its line or from behind it. -/
theorem inLog_line {used rest : List Cell} {log : List Record} (hlong : 2 ≤ p.length)
    (hscan : scan logLevel priSet logUserNotice .empty p =
      some (.line pri priSet' (Line.empty.append used) rest))
    (h : serve logLevel stack priSet logpri p = some log) {c : Cell} (hc : InLog log c) :
    c ∈ used ∨ c ∈ rest.tail := by
  obtain ⟨rec', hrec', hc⟩ := hc
  by_cases hne : used = []
  · subst hne
    rw [append_nil] at hscan
    rw [serve_line hlong hscan, if_neg (by simp [Line.empty]),
      if_pos (show Line.empty.text = [] from rfl)] at h
    exact Or.inr (serve_src h rec' hrec' hc)
  · obtain ⟨-, rec, log', rfl, hrec, hserve⟩ := line_logged hlong hscan hne h
    rcases List.mem_cons.mp hrec' with rfl | hmem
    · rw [(logMessage_eq_some hrec).2.1] at hc
      exact Or.inl hc
    · exact Or.inr (serve_src hserve rec' hmem hc)

/-- A line that is in the log shows its cells. -/
theorem inLog_used {used rest : List Cell} {log : List Record} (hlong : 2 ≤ p.length)
    (hscan : scan logLevel priSet logUserNotice .empty p =
      some (.line pri priSet' (Line.empty.append used) rest))
    (h : serve logLevel stack priSet logpri p = some log) {c : Cell} (hc : c ∈ used) :
    InLog log c := by
  obtain ⟨-, rec, log', rfl, hrec, -⟩ := line_logged hlong hscan (List.ne_nil_of_mem hc) h
  exact ⟨rec, List.mem_cons_self, (logMessage_eq_some hrec).2.1 ▸ hc⟩

/-- A text whose bytes are all logged fits into the line. -/
theorem text_fits {q : List Cell} {log : List Record} (hlong : 2 ≤ p.length)
    (hscan : scan logLevel priSet logUserNotice .empty p =
      scan logLevel priSet' pri .empty (text ++ q))
    (hnul : ∀ c ∈ text, c.1 ≠ 0) (hlt : priSet' = false → ∀ c ∈ text, c.1 ≠ 60)
    (hnodup : (text ++ q).Nodup) (h : serve logLevel stack priSet logpri p = some log)
    (hall : ∀ c ∈ text, InLog log c) : (textOf text).length ≤ maxLine := by
  by_contra hover
  have hover' : maxLine < Line.empty.text.length + (textOf text).length := by
    simpa [Line.empty] using hover
  obtain ⟨front, back, rfl, hfull, hline⟩ :
      ∃ front back, text = front ++ back ∧ maxLine ≤ (Line.empty.append front).text.length ∧
        scan logLevel priSet' pri .empty (text ++ q) =
          some (.line pri priSet' (Line.empty.append front) (back ++ q)) :=
    scan_full hnul hlt hover'
  have hne : front ≠ [] := by
    rintro rfl
    exact absurd hfull (by decide)
  have hline := hscan.trans hline
  obtain ⟨hfront, -⟩ := line_logged hlong hline hne h
  rcases back with _ | ⟨y, back⟩
  · rw [List.append_nil] at hover
    exact hover hfront
  · have hy : InLog log y := hall y (by simp)
    rw [List.append_assoc, List.cons_append, List.nodup_append] at hnodup
    obtain ⟨-, hback, hdisj⟩ := hnodup
    rcases inLog_line hlong hline h hy with hmem | hmem
    · exact hdisj y hmem y List.mem_cons_self rfl
    · exact (List.nodup_cons.mp hback).1 hmem

/-- The first byte of a line that is no priority is logged with it. -/
theorem head_logged {c : Cell} {log : List Record} (hp : p ≠ []) (hc : c.1 ≠ 0)
    (hlt : priSet = false → c.1 ≠ 60)
    (h : serve logLevel stack priSet logpri (c :: p) = some log) :
    InLog log c ∨ scan logLevel priSet logUserNotice .empty (c :: p) = some .returned := by
  have hlong : 2 ≤ (c :: p).length := Nat.succ_le_succ (List.length_pos_of_ne_nil hp)
  cases hscan : scan logLevel priSet logUserNotice .empty (c :: p) with
  | none =>
    rw [serve_none hlong hscan] at h
    cases h
  | some res =>
    cases res with
    | returned => exact Or.inr rfl
    | line pri' priSet' l rest =>
      have hcell := hscan
      rw [scan_cell (by decide) hc hlt] at hcell
      obtain ⟨-, used, -, rfl⟩ := scan_src hcell
      rw [append_cons] at hscan
      exact Or.inl (inLog_used hlong hscan h List.mem_cons_self)

/-- With a priority there is no other one to be filtered out. -/
theorem scan_true_ne_returned {l : Line} : scan logLevel true pri l p ≠ some .returned := by
  induction p generalizing l with
  | nil =>
    rw [scan]
    split <;> simp
  | cons c p ih =>
    by_cases hroom : l.text.length < maxLine
    · by_cases hc : c.1 = 0
      · rw [scan_nul hroom hc]
        simp
      · have hlt : true = false → c.1 ≠ 60 := fun h => absurd h (by decide)
        rw [scan_cell hroom hc hlt]
        exact ih
    · rw [scan_of_full (Nat.not_lt.mp hroom)]
      simp

/-- A plain text that fills the line ends it. -/
theorem scan_fills (hnul : ∀ c ∈ text, c.1 ≠ 0) (hlt : priSet = false → ∀ c ∈ text, c.1 ≠ 60)
    (hfull : maxLine ≤ (textOf text).length) (q : List Cell) :
    scan logLevel priSet pri .empty (text ++ q) ≠ some .returned := by
  rcases hfull.eq_or_lt with heq | hover
  · have hroom : Line.empty.text.length + (textOf text).length ≤ maxLine := by
      simpa [Line.empty] using heq.ge
    have htext : maxLine ≤ (Line.empty.append text).text.length := by
      simpa [Line.append, Line.empty] using hfull
    rw [scan_copy hnul hlt hroom, scan_of_full htext]
    simp
  · have hover' : maxLine < Line.empty.text.length + (textOf text).length := by
      simpa [Line.empty] using hover
    obtain ⟨front, back, -, -, hline⟩ :
        ∃ front back, text = front ++ back ∧ maxLine ≤ (Line.empty.append front).text.length ∧
          scan logLevel priSet pri .empty (text ++ q) =
            some (.line pri priSet (Line.empty.append front) (back ++ q)) :=
      scan_full hnul hlt hover'
    rw [hline]
    simp

theorem stops_of_returned {t : List Cell} (hnul : ∀ c ∈ t, c.1 ≠ 0) (hz : z.1 = 0)
    (h : scan logLevel false pri .empty (t ++ z :: r) = some .returned) : Stops logLevel t := by
  by_cases hlt : ∃ x ∈ t, x.1 = 60
  · obtain ⟨a, x, b, rfl, ha, hx⟩ := split_first hlt
    have hnula : ∀ d ∈ a, d.1 ≠ 0 := fun d hd => hnul d (List.mem_append_left _ hd)
    have htext : (Line.empty.append a).text = textOf a := List.nil_append _
    rw [List.append_assoc] at h
    by_cases hroom : (textOf a).length < maxLine
    · have hcopy : Line.empty.text.length + (textOf a).length ≤ maxLine := by
        simpa [Line.empty] using hroom.le
      rw [scan_copy hnula (fun _ => ha) hcopy, List.cons_append, scan_pri (by rwa [htext]) hx,
        readPri_text hz] at h
      by_cases hnumber : number 0 (b.takeWhile isDigit) < 2 ^ 31
      · rw [if_pos hnumber] at h
        dsimp only at h
        by_cases hlevel : logLevel < (number 0 (b.takeWhile isDigit) % 8 : Nat)
        · exact ⟨a, x, b, rfl, ha, hx, hroom, hnumber, hlevel⟩
        · rw [if_neg hlevel] at h
          exact absurd h scan_true_ne_returned
      · rw [if_neg hnumber] at h
        cases h
    · exact absurd h (scan_fills hnula (fun _ => ha) (Nat.not_lt.mp hroom) _)
  · have hplain : ∀ x ∈ t, x.1 ≠ 60 := fun x hx heq => hlt ⟨x, hx, heq⟩
    by_cases hfit : (textOf t).length ≤ maxLine
    · obtain ⟨rest, hscan, -⟩ := scan_text hnul (fun _ => hplain) hz hfit
      cases hscan.symm.trans h
    · exact absurd h (scan_fills hnul (fun _ => hplain) (Nat.le_of_not_le hfit) _)

/-- What a log has to do with the messages that it is to show. -/
structure Shows (logLevel : Int) (ms : List (List Cell)) (log : List Record) : Prop where
  bytes : log.flatMap bytesOf = expected logLevel ms
  complete : ∀ rec ∈ log, Complete rec

/-- A message that loses its first byte must not be logged. -/
theorem next_of_logged {log : List Record} (hnodup : r.Nodup) (hterm : Terminated r)
    (h : serve logLevel stack false logpri r.tail = some log)
    (hshows : Shows logLevel (messages r) log)
    (hserved : Shows logLevel (messages r.tail) log → Served logLevel false (messages r.tail)) :
    Next logLevel (messages r) := by
  rcases r with _ | ⟨c, r⟩
  · trivial
  by_cases hc : c.1 = 0
  · rw [messages, if_pos hc] at hshows ⊢
    exact hserved ⟨hshows.bytes, hshows.complete⟩
  obtain ⟨t, z, r, rfl, hnul, hz, hms⟩ := cut_message hterm hc
  rw [hms] at hshows ⊢
  obtain ⟨hct, hnodup⟩ := List.nodup_cons.mp hnodup
  have hcut : ¬ InLog log c := fun ⟨rec, hrec, hmem⟩ => hct (serve_src h rec hrec hmem)
  cases hpri : priority (c :: t) with
  | none =>
    have hdue : (logUserNotice, c) ∈ due logLevel (c :: t) := by simp [due, hpri]
    exact absurd (inLog_of_expected hshows.bytes (List.mem_append_left _ hdue)) hcut
  | some res =>
    obtain ⟨v, text⟩ := res
    obtain ⟨d, t, rfl, hd, hdt⟩ : ∃ d t', t = d :: t' ∧ (isDigit d = true ∨ d.1 = 62) ∧
        text ⊆ t' := by
      obtain ⟨c, ds, g, heq, -, hds, hg, -⟩ := priority_eq_some_iff.mp hpri
      cases heq
      rcases ds with _ | ⟨d, ds⟩
      · exact ⟨g, text, rfl, Or.inr hg, List.Subset.refl _⟩
      · exact ⟨d, ds ++ g :: text, rfl, Or.inl (hds d List.mem_cons_self), by simp⟩
    have hd60 : d.1 ≠ 60 := by
      intro heq
      simp [isDigit, heq] at hd
    rw [List.tail_cons, List.cons_append] at h
    rw [List.cons_append] at hnodup
    obtain ⟨hnot, -⟩ := List.nodup_cons.mp hnodup
    rcases head_logged (by simp) (hnul d (by simp)) (fun _ => hd60) h with hlog | hreturned
    · obtain ⟨e, he, rfl⟩ := expected_of_inLog hshows.bytes hlog
      refine absurd ?_ hnot
      rcases List.mem_append.mp he with he | he
      · exact List.mem_append_left _ (hdt ((due_mem he).2 v text hpri))
      · exact List.mem_append_right _ (List.mem_cons_of_mem _ (expected_mem he))
    · have hlong : 2 ≤ (d :: (t ++ z :: r)).length := by
        rw [List.length_cons, List.length_append, List.length_cons]
        omega
      rw [serve_returned hlong hreturned] at h
      cases h
      obtain ⟨hdue, hnothing⟩ := List.forall_mem_cons.mp (expected_nil_iff.mp hshows.bytes.symm)
      have hnult : ∀ x ∈ d :: t, x.1 ≠ 0 := (List.forall_mem_cons.mp hnul).2
      exact ⟨hdue, stops_of_returned hnult hz hreturned, hnothing⟩

/-- A message whose line is complete, and what is logged behind it. -/
theorem loggable_of_line {m rest : List Cell} {ms : List (List Cell)} {log : List Record}
    (hlong : 2 ≤ p.length)
    (hscan : scan logLevel priSet logUserNotice .empty p =
      some (.line pri priSet' (Line.empty.append text) rest))
    (hnul : ∀ c ∈ text, c.1 ≠ 0) (hfit : (textOf text).length ≤ maxLine)
    (hlogpri : logpri ≠ some 0) (hdue : due logLevel m = text.map (pri, ·))
    (h : serve logLevel stack priSet logpri p = some log) (hshows : Shows logLevel (m :: ms) log) :
    Loggable pri text ∧ ∃ lp ≠ some 0, ∃ log', serve logLevel stack priSet' lp rest.tail = some log' ∧
      Shows logLevel ms log' := by
  have hbytes := hshows.bytes
  rw [expected_cons, hdue] at hbytes
  by_cases hne : text = []
  · subst hne
    rw [append_nil] at hscan
    rw [serve_line hlong hscan, if_neg (by simp [Line.empty]),
      if_pos (show Line.empty.text = [] from rfl)] at h
    exact ⟨Or.inl rfl, logpri, hlogpri, log, h, hbytes, hshows.complete⟩
  · obtain ⟨-, rec, log', rfl, hrec, hserve⟩ := line_logged hlong hscan hne h
    obtain ⟨hcomplete, hcompletes⟩ := List.forall_mem_cons.mp hshows.complete
    obtain ⟨hrecPri, hrecSrc, hrecLogpri⟩ := logMessage_eq_some hrec
    have hpri : pri ≠ 0 := by
      intro hzero
      rw [if_pos hzero, hcomplete.logpri, hrecPri, hzero] at hrecLogpri
      exact hlogpri hrecLogpri.symm
    rw [if_neg hpri] at hrecLogpri
    have hsrc : rec.src = text := hrecSrc.trans (List.nil_append _)
    rw [List.flatMap_cons, bytesOf, hrecPri, hsrc] at hbytes
    refine ⟨Or.inr ⟨hpri, hfit, complete_blank hnul hrec hcomplete⟩, rec.logpri, ?_, log', hserve,
      List.append_cancel_left hbytes, hcompletes⟩
    rw [hrecLogpri]
    simpa using hpri

/-- In a message without a priority a `<` is not logged. -/
theorem plain_of_logged {m q : List Cell} {log : List Record} (hlong : 2 ≤ (m ++ q).length)
    (hnul : ∀ c ∈ m, c.1 ≠ 0) (hnodup : (m ++ q).Nodup)
    (h : serve logLevel stack false logpri (m ++ q) = some log) (hall : ∀ c ∈ m, InLog log c) :
    ∀ c ∈ m, c.1 ≠ 60 := by
  by_contra hex
  push Not at hex
  obtain ⟨a, x, b, rfl, ha, hx⟩ := split_first hex
  have hxlog : InLog log x := hall x (by simp)
  have hnula : ∀ d ∈ a, d.1 ≠ 0 := fun d hd => hnul d (List.mem_append_left _ hd)
  rw [List.append_assoc, List.cons_append] at h hlong hnodup
  have hfit : (textOf a).length ≤ maxLine :=
    text_fits hlong rfl hnula (fun _ => ha) hnodup h fun d hd =>
      hall d (List.mem_append_left _ hd)
  obtain ⟨-, hxq, hdisj⟩ := List.nodup_append.mp hnodup
  have hxa : x ∉ a := fun hmem => hdisj x hmem x List.mem_cons_self rfl
  have hxq : x ∉ b ++ q := (List.nodup_cons.mp hxq).1
  have hroom : Line.empty.text.length + (textOf a).length ≤ maxLine := by
    simpa [Line.empty] using hfit
  have htext : (Line.empty.append a).text = textOf a := List.nil_append _
  have hcopy : scan logLevel false logUserNotice .empty (a ++ x :: (b ++ q)) =
      scan logLevel false logUserNotice (Line.empty.append a) (x :: (b ++ q)) :=
    scan_copy hnula (fun _ => ha) hroom
  by_cases hfull : maxLine ≤ (textOf a).length
  · have hline := hcopy.trans (scan_of_full (by rwa [htext]))
    rcases inLog_line hlong hline h hxlog with hmem | hmem
    · exact hxa hmem
    · exact hxq hmem
  rw [scan_pri (by rw [htext]; omega) hx] at hcopy
  cases hread : readPri 0 (b ++ q) with
  | none =>
    rw [hread] at hcopy
    rw [serve_none hlong hcopy] at h
    cases h
  | some res =>
    obtain ⟨v, r⟩ := res
    have hr : r.tail <:+ b ++ q := (List.tail_suffix r).trans (readPri_suffix hread)
    rw [hread] at hcopy
    dsimp only at hcopy
    split at hcopy
    · rw [serve_returned hlong hcopy] at h
      cases h
      obtain ⟨rec, hrec, -⟩ := hxlog
      cases hrec
    · cases hbehind : scan logLevel true (if v < 1024 then v else logUserNotice)
          (Line.empty.append a) r.tail with
      | none =>
        rw [serve_none hlong (hcopy.trans hbehind)] at h
        cases h
      | some res =>
        cases res with
        | returned => exact scan_true_ne_returned hbehind
        | line pri' priSet' l rest =>
          obtain ⟨hrest, used, hused, rfl⟩ := scan_src hbehind
          rw [append_append] at hbehind
          rcases inLog_line hlong (hcopy.trans hbehind) h hxlog with hmem | hmem
          · rcases List.mem_append.mp hmem with hmem | hmem
            · exact hxa hmem
            · exact hxq (hr.subset (hused hmem))
          · exact hxq (hr.subset (hrest.subset (List.mem_of_mem_tail hmem)))

/-- A message with a priority is not read behind another one's. -/
theorem unset_of_logged {c : Cell} {m : List Cell} {v : Nat} {log : List Record}
    (hpri : priority (c :: m) = some (v, text)) (hsub : text ⊆ m) (hc : c.1 ≠ 0)
    (hnodup : (c :: m ++ z :: r).Nodup)
    (h : serve logLevel stack priSet logpri (c :: m ++ z :: r) = some log)
    (hbytes : log.flatMap bytesOf = expected logLevel ((c :: m) :: messages r)) :
    priSet = false := by
  by_contra hne
  rw [Bool.not_eq_false] at hne
  subst hne
  obtain ⟨hnot, -⟩ := List.nodup_cons.mp hnodup
  have hlt : true = false → c.1 ≠ 60 := fun h => absurd h (by decide)
  rcases head_logged (by simp) hc hlt h with hlog | hreturned
  · obtain ⟨e, he, rfl⟩ := expected_of_inLog hbytes hlog
    rcases List.mem_append.mp he with he | he
    · exact hnot (List.mem_append_left _ (hsub ((due_mem he).2 _ _ hpri)))
    · exact hnot (by simp [expected_mem he])
  · exact scan_true_ne_returned hreturned

theorem served_of_logged {log : List Record} (hnodup : p.Nodup) (hterm : Terminated p)
    (hlogpri : logpri ≠ some 0) (h : serve logLevel stack priSet logpri p = some log)
    (hshows : Shows logLevel (messages p) log) : Served logLevel priSet (messages p) := by
  induction hn : p.length using Nat.strong_induction_on
    generalizing p priSet logpri log with
  | _ n ih =>
    by_cases hshort : p.length < 2
    · rcases hterm.short hshort with hms | hms
      · rw [hms]
        trivial
      · rw [hms]
        exact ⟨nofun, Or.inl rfl, trivial⟩
    have hlong := Nat.not_lt.mp hshort
    obtain ⟨m, z, r, rfl, hm, hz⟩ := hterm.split (by rintro rfl; exact hshort (by decide))
    have htermr : Terminated r := hterm.suffix ⟨m ++ [z], by simp⟩
    have hnodupr : r.Nodup := (List.nodup_cons.mp (List.nodup_append.mp hnodup).2.1).2
    rw [messages_append hm hz] at hshows ⊢
    rw [List.length_append, List.length_cons] at hn
    -- what is logged behind the message
    have hbehind {priSet' : Bool} {k : Nat} {rest : List Cell}
        (htail : rest.tail = if k = maxLine then r else r.tail)
        (h : ∃ lp ≠ some 0, ∃ log, serve logLevel stack (if k = maxLine then priSet' else false) lp
          rest.tail = some log ∧ Shows logLevel (messages r) log) :
        if k = maxLine then Served logLevel priSet' (messages r)
          else Next logLevel (messages r) := by
      obtain ⟨lp, hlp, log, hserve, hshows⟩ := h
      rw [htail] at hserve
      split
      · rename_i hk
        rw [if_pos hk, if_pos hk] at hserve
        exact ih r.length (by omega) hnodupr htermr hlp hserve hshows rfl
      · rename_i hk
        rw [if_neg hk, if_neg hk] at hserve
        refine next_of_logged hnodupr htermr hserve hshows fun hshows => ?_
        refine ih r.tail.length ?_ (hnodupr.sublist (List.tail_sublist r))
          (htermr.suffix (List.tail_suffix r)) hlp hserve hshows rfl
        rw [List.length_tail]
        omega
    have hinLog {text : List Cell} {pri : Nat} (hdue : due logLevel m = text.map (pri, ·)) :
        ∀ c ∈ text, InLog log c := by
      intro c hc
      have he : (pri, c) ∈ due logLevel m := hdue ▸ List.mem_map_of_mem hc
      exact inLog_of_expected hshows.bytes (List.mem_append_left _ he)
    rw [Served]
    cases hpri : priority m with
    | none =>
      have hdue : due logLevel m = m.map (logUserNotice, ·) := by rw [due, hpri]
      have hall := hinLog hdue
      have hlt : priSet = false → ∀ c ∈ m, c.1 ≠ 60 := by
        rintro rfl
        exact plain_of_logged hlong hm hnodup h hall
      have hfit := text_fits hlong rfl hm hlt hnodup h hall
      obtain ⟨rest, hscan, htail⟩ := scan_text hm hlt hz hfit
      obtain ⟨hloggable, hmore⟩ := loggable_of_line hlong hscan hm hfit hlogpri hdue h hshows
      exact ⟨hlt, hloggable, hbehind htail hmore⟩
    | some res =>
      obtain ⟨v, text⟩ := res
      obtain ⟨c, ds, g, rfl, hc, hds, hg, rfl⟩ := priority_eq_some_iff.mp hpri
      have hsub : text ⊆ ds ++ g :: text := fun d hd => by simp [hd]
      have hset := unset_of_logged hpri hsub (hm c (by simp)) hnodup h hshows.bytes
      subst hset
      have hscan : scan logLevel false logUserNotice .empty (c :: (ds ++ g :: text) ++ z :: r) = _ :=
        scan_priority hc hds hg (z :: r)
      have hdue : due logLevel (c :: (ds ++ g :: text)) = _ := due_text hc hds hg
      by_cases hv : number 0 ds < 2 ^ 31
      · rw [if_pos hv] at hscan
        refine ⟨rfl, hv, ?_⟩
        by_cases hlevel : logLevel < (number 0 ds % 8 : Nat)
        · rw [if_pos hlevel] at hscan ⊢
          rw [serve_returned hlong hscan] at h
          cases h
          exact (List.forall_mem_cons.mp (expected_nil_iff.mp hshows.bytes.symm)).2
        · rw [if_neg hlevel] at hscan hdue ⊢
          have hnul : ∀ d ∈ text, d.1 ≠ 0 := fun d hd => hm d (by simp [hd])
          have hlt : true = false → ∀ d ∈ text, d.1 ≠ 60 := nofun
          have hsuffix : text ++ z :: r <:+ c :: (ds ++ g :: text) ++ z :: r :=
            ⟨c :: (ds ++ [g]), by simp⟩
          have hnodup' := hnodup.sublist hsuffix.sublist
          have hfit := text_fits hlong hscan hnul hlt hnodup' h (hinLog hdue)
          obtain ⟨rest, htext, htail⟩ := scan_text hnul hlt hz hfit
          obtain ⟨hloggable, hmore⟩ :=
            loggable_of_line hlong (hscan.trans htext) hnul hfit hlogpri hdue h hshows
          exact ⟨hloggable, hbehind htail hmore⟩
      · rw [if_neg hv] at hscan
        rw [serve_none hlong hscan] at h
        cases h

end

theorem cells_nodup (b : Bytes) : b.zipIdx.Nodup := by
  have hindices : (b.zipIdx.map Prod.snd).Nodup := by
    rw [List.zipIdx_map_snd]
    exact List.nodup_range'
  exact (List.pairwise_map.mp hindices).imp fun hne heq => hne (congrArg Prod.snd heq)

theorem cells_terminated (datagram : Bytes) : Terminated (datagram ++ [0]).zipIdx := by
  intro c hc
  rw [List.zipIdx_append, List.zipIdx_singleton, List.getLast?_concat, Option.mem_some_iff] at hc
  rw [← hc]

theorem Next.due_eq_nil {logLevel : Int} {m : List Cell} {ms : List (List Cell)}
    (h : Next logLevel (m :: ms)) (hne : m ≠ []) : due logLevel m = [] := by
  cases m with
  | nil => exact absurd rfl hne
  | cons c t => exact h.1

theorem served_of_right {logLevel : Int} {datagram : Bytes} (h : Right logLevel datagram) :
    Served logLevel false (messages (datagram ++ [0]).zipIdx) := by
  obtain ⟨log, hserve, hlogged⟩ := h (fun _ => .zeros 1025) none
  have hlogpri : (none : Option Nat) ≠ some 0 := nofun
  refine served_of_logged (cells_nodup _) (cells_terminated datagram) hlogpri hserve ?_
  exact ⟨hlogged.bytes, fun rec hrec => (hlogged.lines rec hrec).1⟩

/-- A datagram is logged if and only if each message that is to be logged fits into a line with a
blank behind its time stamp, and behind one that ends inside of its line the next one is empty or
need not be logged. -/
theorem datagram_logged_iff (logLevel : Int) (datagram : Bytes) :
    Right logLevel datagram ↔ Served logLevel false (messages (datagram ++ [0]).zipIdx) := by
  constructor
  · exact served_of_right
  · intro h stack logpri
    exact logged_of_served (cells_terminated datagram) h

/-- The second message loses its first byte and with it its priority. -/
theorem second_message_cut : ¬ ∀ logLevel datagram, Right logLevel datagram := by
  intro h
  have hserved := served_of_right
    (h 7 (ascii "<13>Jan  1 00:00:00 up" ++ 0 :: ascii "<11>Jan  1 00:00:00 down"))
  have hms : messages ((ascii "<13>Jan  1 00:00:00 up" ++ 0 ::
      ascii "<11>Jan  1 00:00:00 down") ++ [0]).zipIdx =
        [(ascii "<13>Jan  1 00:00:00 up").zipIdx,
          (ascii "<11>Jan  1 00:00:00 down").zipIdx 23] := by decide +kernel
  have hpri : priority (ascii "<13>Jan  1 00:00:00 up").zipIdx =
      some (13, (ascii "Jan  1 00:00:00 up").zipIdx 4) := by decide +kernel
  have hfits : (textOf ((ascii "Jan  1 00:00:00 up").zipIdx 4)).length ≠ maxLine := by
    decide +kernel
  have hdue : due 7 ((ascii "<11>Jan  1 00:00:00 down").zipIdx 23) ≠ [] := by decide +kernel
  rw [hms, Served, hpri] at hserved
  obtain ⟨-, -, hserved⟩ := hserved
  rw [if_neg (by decide), if_neg hfits] at hserved
  exact hdue (hserved.2.due_eq_nil (by decide +kernel))

end SyslogMessages
