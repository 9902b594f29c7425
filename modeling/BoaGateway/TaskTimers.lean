import BoaGateway.MibText

/-!
# Timer tasks

`andlink_setup_tasktimer` writes the lines of a file, one or two for each weekday of an enabled
task, and `andlink_get_tasktimer_from_file` reads them into the array of the tasks. The number at
the head of a line is the index into the array.
-/

namespace TaskTimers

open ByteBlocks MibValue TextFiles Texts MibText

def comma : UInt8 := 44

def secondsOfADay : Nat := 86400

/-- `MIB_CE_WLAN_TIMER_TASK_ENTRY_T`. -/
structure TimerTask where
  taskid : Block 10
  timeoffset : Nat
  week : Nat
  enable : Nat
  action : Block 20
  timeoffset2 : Nat
  idxnum : Nat

/-- The structure is packed, so a text without an end runs on into the next members. -/
def TimerTask.bytes (e : TimerTask) : Bytes :=
  e.taskid.1 ++ leBytes 4 e.timeoffset ++ leBytes 4 e.week ++ leBytes 4 e.enable ++ e.action.1 ++
    leBytes 4 e.timeoffset2 ++ leBytes 4 e.idxnum

def TimerTask.actionText (e : TimerTask) : Bytes := cstr (e.bytes.drop 22)

/-- A line of the file, with the task and the weekday it is written for. -/
structure Line where
  task : Nat
  weekday : Nat
  cnt : Nat
  taskid : Int
  date : Nat
  start : Int
  stop : Int
  action : Bytes
  idxnum : Int
  cmdLoop : Nat

/-- `"%d,%d,%d,%d,%d,%s,%d,%d\n"`. -/
def Line.text (l : Line) : Bytes :=
  intText l.cnt ++ comma :: (intText l.taskid ++ comma :: (intText l.date ++ comma ::
    (intText l.start ++ comma :: (intText l.stop ++ comma :: (l.action ++ comma ::
      (intText l.idxnum ++ comma :: (intText l.cmdLoop ++ [newline])))))))

/-- A selected weekday. A task that goes on after midnight has a second line. -/
def dayLines (k : Nat) (e : TimerTask) (cmdLoop cnt i : Nat) : List Line :=
  let start := s32 e.timeoffset
  if secondsOfADay ≤ e.timeoffset2 then
    [⟨k, i, cnt + 1, atoi e.bytes, i, start, secondsOfADay - 1, e.actionText, s32 e.idxnum,
        cmdLoop⟩,
      ⟨k, i, cnt + 2, atoi e.bytes, if i ≤ 5 then i + 1 else 0, 0,
        s32 (e.timeoffset2 - secondsOfADay), e.actionText, s32 e.idxnum, cmdLoop⟩]
  else
    [⟨k, i, cnt + 1, atoi e.bytes, i, start, s32 e.timeoffset2, e.actionText, s32 e.idxnum,
      cmdLoop⟩]

/-- The loop over the weekdays. -/
def weekLines (k : Nat) (e : TimerTask) (cmdLoop : Nat) : List Nat → Nat → List Line
  | [], _ => []
  | i :: days, cnt =>
    if e.week.testBit i then
      let lines := dayLines k e cmdLoop cnt i
      lines ++ weekLines k e cmdLoop days (cnt + lines.length)
    else weekLines k e cmdLoop days cnt

/-- The loop over the tasks. -/
def taskLines : List TimerTask → Nat → Nat → Nat → List Line
  | [], _, _, _ => []
  | e :: tasks, k, cnt, cmdLoop =>
    if e.enable ≠ 0 then
      let cmdLoop := if e.enable = 1 then 1 else if e.enable = 2 then 0 else cmdLoop
      let lines := weekLines k e cmdLoop (List.range 7) cnt
      lines ++ taskLines tasks (k + 1) (cnt + lines.length) cmdLoop
    else taskLines tasks (k + 1) cnt cmdLoop

/-- `write_line_to_file`: mode 1 begins the file anew, mode 2 appends. -/
def writeLineToFile (mode : Nat) (line : Bytes) (file : Option Bytes) : Option Bytes :=
  if mode = 1 then some line else file.map (· ++ line)

def writeLines : List Line → Nat → Option Bytes → Option Bytes
  | [], _, file => file
  | l :: lines, newfile, file => writeLines lines 2 (writeLineToFile newfile l.text file)

/-- `andlink_setup_tasktimer`. -/
def andlinkSetupTasktimer (tasks : List TimerTask) (file : Option Bytes) : Option Bytes :=
  writeLines (taskLines tasks 0 0 0) 1 file

/-- `struct task_info`. -/
structure TaskInfo where
  fTime : Nat
  taskid : Nat
  date : Nat
  action : Block 20
  tTime : Nat
  index : Nat
  loop : Nat

/-- `MAX_TASK_SCHEDULE_NUM` entries. -/
abbrev Tasks := Fin 70 → TaskInfo

/-- The texts that so many calls of `strsep` give, if none of them gives `NULL`. -/
def strseps : Nat → Option Bytes → Option (List Bytes)
  | 0, _ => some []
  | _ + 1, none => none
  | n + 1, some s =>
    let rest := if comma ∈ s then some (s.dropWhile (· != comma)).tail else none
    (strseps n rest).map (s.takeWhile (· != comma) :: ·)

/-- A line that is read. Fewer than eight texts, or an index outside the array, is a fault. -/
def readTask (line : Bytes) (tasks : Tasks) : Option Tasks :=
  match strseps 8 (some line) with
  | some [str1, taskid, date, fTime, tTime, action, index, loop] =>
    let idx1 := atoi str1 - 1
    if h : 0 ≤ idx1 ∧ idx1 < 70 then
      let idx : Fin 70 := ⟨idx1.toNat, by omega⟩
      ((tasks idx).action.write 0 (strncpy action 19)).map fun action =>
        Function.update tasks idx
          ⟨u32OfInt (atoi fTime), u32OfInt (atoi taskid), u32OfInt (atoi date), action,
            u32OfInt (atoi tTime), u32OfInt (atoi index), u32OfInt (atoi loop) % 256⟩
    else none
  | _ => none

/-- The loop over the lines, with `taskSchk`. -/
def readTasks : List Bytes → Tasks → Bool → Option (Tasks × Bool)
  | [], tasks, taskSchk => some (tasks, taskSchk)
  | line :: lines, tasks, taskSchk =>
    if cstr line = [] then readTasks lines tasks taskSchk
    else (readTask (cstr line) tasks).bind fun tasks => readTasks lines tasks true

/-- `andlink_get_tasktimer_from_file`. -/
def andlinkGetTasktimerFromFile (file : Option Bytes) (tasks : Tasks) : Option (Tasks × Bool) :=
  match file with
  | none => some (tasks, false)
  | some s => readTasks (fgetsLines 199 [] s) tasks false

/-- The second of a weekday lies in the entry's window. -/
def TaskInfo.Contains (t : TaskInfo) (day : Fin 7) (second : Nat) : Prop :=
  t.date = day ∧ t.fTime ≤ second ∧ second < t.tTime

/-- The second of a weekday lies in the task's interval, counted from a selected weekday's
midnight. -/
def TimerTask.Contains (e : TimerTask) (selected day : Fin 7) (second : Nat) : Prop :=
  day = selected ∧ e.timeoffset ≤ second ∧ second < e.timeoffset2 ∨
    day.val = (selected.val + 1) % 7 ∧ e.timeoffset ≤ second + secondsOfADay ∧
      second + secondsOfADay < e.timeoffset2

/-- The entries that the lines of a task and a weekday name. -/
def own (lines : List Line) (tasks : Tasks) (k : Nat) (day : Fin 7) : Set TaskInfo :=
  {t | ∃ l ∈ lines, l.task = k ∧ l.weekday = day ∧ ∃ j : Fin 70, j.val + 1 = l.cnt ∧ t = tasks j}

/-- The file is read without a fault, and the entries of each enabled task and selected weekday
cover its interval. -/
def Kept (table : List TimerTask) (file : Option Bytes) (tasks : Tasks) : Prop :=
  ∃ tasks' taskSchk,
    andlinkGetTasktimerFromFile (andlinkSetupTasktimer table file) tasks = some (tasks', taskSchk) ∧
    ∀ k e, table[k]? = some e → e.enable ≠ 0 → ∀ selected : Fin 7, e.week.testBit selected →
      ∀ (day : Fin 7) (second : Nat), second < secondsOfADay →
        ((∃ t ∈ own (taskLines table 0 0 0) tasks' k selected, t.Contains day second) ↔
          e.Contains selected day second)

theorem readNumber_decimal (n : Nat) : readNumber 10 (numeral 10 n) = (false, n) := by
  obtain ⟨d, ds, hnumeral, hds, -⟩ := numeral_digits (by decide : 1 < 10) n
  have hd : d < 10 := hds d List.mem_cons_self
  obtain ⟨hunsigned, hsign⟩ := unsignedText_digits (by decide) hd (ds.map digitByte)
  obtain ⟨-, hspace, hplain⟩ := digitByte_value (Nat.lt_trans hd (by decide))
  simp only [List.mem_cons, not_or] at hplain
  have hskip : (numeral 10 n).dropWhile isSpace = numeral 10 n := by
    rw [hnumeral]
    exact skipSpace_cons hspace _
  have hhead : (numeral 10 n).head? = some (digitByte d) := by
    rw [hnumeral]
    rfl
  have hminus : (some (digitByte d) == some 45) = false := by simp [hplain.1]
  have hplus : (some (digitByte d) == some 43) = false := by simp [hplain.2.1]
  simp only [readNumber, hskip, hhead, hminus, hplus, Bool.or_self, Bool.false_eq_true, if_false,
    OfNat.ofNat_ne_zero, readDigits_decimal]

theorem readNumber_negative (n : Nat) : readNumber 10 (45 :: numeral 10 n) = (true, n) := by
  have hskip : (45 :: numeral 10 n).dropWhile isSpace = 45 :: numeral 10 n :=
    skipSpace_cons (by decide) _
  simp only [readNumber, hskip, List.head?_cons, beq_self_eq_true, Bool.true_or, if_true,
    List.tail_cons, OfNat.ofNat_ne_zero, if_false, readDigits_decimal]

theorem intText_nul_free (z : Int) : (0 : UInt8) ∉ intText z := by
  rw [intText]
  split
  · rw [List.mem_cons, not_or]
    exact ⟨by decide, numeral_nul_free _⟩
  · exact numeral_nul_free _

theorem atoi_intText {z : Int} (hlow : -(2 ^ 31) ≤ z) (hhigh : z < 2 ^ 31) :
    atoi (intText z) = z := by
  rw [atoi, strtol, cstr_eq_self (intText_nul_free z), intText]
  by_cases hneg : z < 0
  · have habs : -(z.natAbs : Int) = z := by omega
    rw [if_pos hneg, readNumber_negative]
    dsimp only
    rw [if_pos rfl, habs, max_eq_left hlow]
  · have habs : (z.natAbs : Int) = z := by omega
    rw [if_neg hneg, readNumber_decimal]
    dsimp only
    rw [if_neg Bool.false_ne_true, habs, min_eq_left (Int.le_sub_one_of_lt hhigh)]

/-- A number has no byte of a punctuation in it. -/
theorem intText_plain (z : Int) : comma ∉ intText z ∧ newline ∉ intText z := by
  have hdigit : ∀ k : Fin 10, digitByte k ≠ comma ∧ digitByte k ≠ newline := by decide
  have hnumeral : ∀ n, comma ∉ numeral 10 n ∧ newline ∉ numeral 10 n := by
    intro n
    obtain ⟨d, ds, hnumeral, hds, -⟩ := numeral_digits (by decide : 1 < 10) n
    rw [hnumeral, ← List.map_cons]
    constructor
    · intro h
      obtain ⟨e, he, heq⟩ := List.mem_map.mp h
      exact (hdigit ⟨e, hds e he⟩).1 heq
    · intro h
      obtain ⟨e, he, heq⟩ := List.mem_map.mp h
      exact (hdigit ⟨e, hds e he⟩).2 heq
  rw [intText]
  split
  · rw [List.mem_cons, List.mem_cons, not_or, not_or]
    exact ⟨⟨by decide, (hnumeral _).1⟩, by decide, (hnumeral _).2⟩
  · exact hnumeral _

theorem strseps_comma {t : Bytes} (ht : comma ∉ t) (n : Nat) (s : Bytes) :
    strseps (n + 1) (some (t ++ comma :: s)) = (strseps n (some s)).map (t :: ·) := by
  have hall : ∀ c ∈ t, (c != comma) = true := by
    intro c hc
    rw [bne_iff_ne]
    exact fun heq => ht (heq ▸ hc)
  have hmem : comma ∈ t ++ comma :: s := List.mem_append_right _ List.mem_cons_self
  have htake : (t ++ comma :: s).takeWhile (· != comma) = t :=
    takeWhile_word hall (by decide) s
  have hdrop : (t ++ comma :: s).dropWhile (· != comma) = comma :: s := by
    rw [List.dropWhile_append_of_pos hall, List.dropWhile_cons, if_neg (by decide)]
  rw [strseps, if_pos hmem, htake, hdrop]
  rfl

/-- There is one text more than commas. -/
theorem strseps_isSome (n : Nat) (s : Bytes) :
    (strseps (n + 1) (some s)).isSome = true ↔ n ≤ s.count comma := by
  induction n generalizing s with
  | zero => simp [strseps]
  | succ n ih =>
    by_cases hmem : comma ∈ s
    · obtain ⟨t, u, rfl, ht⟩ := List.eq_append_cons_of_mem hmem
      rw [strseps_comma ht, Option.isSome_map, ih, List.count_append, List.count_cons_self,
        List.count_eq_zero_of_not_mem ht]
      omega
    · rw [strseps, if_neg hmem, List.count_eq_zero_of_not_mem hmem]
      simp [strseps]

theorem strseps_length {n : Nat} {s : Option Bytes} {ts : List Bytes} (h : strseps n s = some ts) :
    ts.length = n := by
  induction n generalizing s ts with
  | zero =>
    cases h
    rfl
  | succ n ih =>
    cases s with
    | none => cases h
    | some s =>
      rw [strseps] at h
      obtain ⟨ts', hts, rfl⟩ := Option.map_eq_some_iff.mp h
      rw [List.length_cons, ih hts]

/-- A line that can be read into the array. -/
structure WellFormed (line : Bytes) : Prop where
  commas : 7 ≤ line.count comma
  low : 1 ≤ atoi (line.takeWhile (· != comma))
  high : atoi (line.takeWhile (· != comma)) ≤ 70

theorem readTask_isSome (line : Bytes) (tasks : Tasks) :
    (readTask line tasks).isSome = true ↔ WellFormed line := by
  have hcount := strseps_isSome 7 line
  rw [readTask]
  cases hts : strseps 8 (some line) with
  | none =>
    rw [hts] at hcount
    exact iff_of_false Bool.false_ne_true fun h => Bool.false_ne_true (hcount.mpr h.commas)
  | some ts =>
    have hlen := strseps_length hts
    rw [hts] at hcount
    have hcommas := hcount.mp rfl
    rw [strseps] at hts
    obtain ⟨rest, -, rfl⟩ := Option.map_eq_some_iff.mp hts
    match rest, hlen with
    | [taskid, date, fTime, tTime, action, index, loop], _ =>
      dsimp only
      split
      · rename_i hidx
        have hwrite : 0 + (strncpy action 19).length ≤ 20 := by
          rw [strncpy_length]
          decide
        rw [Option.isSome_map, Option.isSome_iff_exists]
        exact iff_of_true (Block.write_fits _ hwrite) ⟨hcommas, by omega, by omega⟩
      · rename_i hidx
        refine iff_of_false Bool.false_ne_true fun h => hidx ?_
        have hlow := h.low
        have hhigh := h.high
        omega

/-- What the members of a line are like. -/
structure Line.Printable (l : Line) : Prop where
  taskid : -(2 ^ 31) ≤ l.taskid ∧ l.taskid < 2 ^ 31
  date : l.date < 7
  start : 0 ≤ l.start ∧ l.start < 2 * secondsOfADay
  stop : 0 ≤ l.stop ∧ l.stop < secondsOfADay
  action : (0 : UInt8) ∉ l.action ∧ newline ∉ l.action ∧ l.action.length ≤ 23
  idxnum : -(2 ^ 31) ≤ l.idxnum ∧ l.idxnum < 2 ^ 31
  cmdLoop : l.cmdLoop ≤ 1

/-- The entry has the line's window. -/
structure TaskInfo.From (t : TaskInfo) (l : Line) : Prop where
  date : t.date = l.date
  fTime : t.fTime = l.start
  tTime : t.tTime = l.stop

variable {l : Line}

theorem natText_length {n k : Nat} (hk : 0 < k) (hn : n < 10 ^ k) :
    (intText n).length ≤ k := by
  rw [intText, if_neg (by omega)]
  exact numeral_length (by decide) hk hn

/-- What stands in front of the end of the line. -/
def Line.body (l : Line) : Bytes :=
  intText l.cnt ++ comma :: (intText l.taskid ++ comma :: (intText l.date ++ comma ::
    (intText l.start ++ comma :: (intText l.stop ++ comma :: (l.action ++ comma ::
      (intText l.idxnum ++ comma :: intText l.cmdLoop))))))

theorem text_eq (l : Line) : l.text = l.body ++ [newline] := by
  simp [Line.text, Line.body]

/-- No line runs over `line_buffer`, or over the buffer of `fgets`. -/
theorem body_length (h : l.Printable) (hcnt : l.cnt < 10 ^ 10) : l.body.length + 2 ≤ 100 := by
  have hday : secondsOfADay = 86400 := rfl
  obtain ⟨hstart, hstart'⟩ := h.start
  obtain ⟨hstop, hstop'⟩ := h.stop
  have hcntLength := natText_length (by decide) hcnt
  have htaskid := intText_length h.taskid.1 h.taskid.2
  have hdate := natText_length (n := l.date) (k := 1) (by decide) (by have := h.date; omega)
  have hloop := natText_length (n := l.cmdLoop) (k := 1) (by decide) (by have := h.cmdLoop; omega)
  have hidx := intText_length h.idxnum.1 h.idxnum.2
  have haction := h.action.2.2
  have hstartLength : (intText l.start).length ≤ 6 := by
    rw [← Int.toNat_of_nonneg hstart]
    exact natText_length (by decide) (by omega)
  have hstopLength : (intText l.stop).length ≤ 6 := by
    rw [← Int.toNat_of_nonneg hstop]
    exact natText_length (by decide) (by omega)
  simp only [Line.body, List.length_append, List.length_cons]
  omega

theorem body_plain (h : l.Printable) : (0 : UInt8) ∉ l.body ∧ newline ∉ l.body := by
  have hnul : (0 : UInt8) ≠ comma := by decide
  have hnewline : newline ≠ comma := by decide
  simp only [Line.body, List.mem_append, List.mem_cons, intText_nul_free, intText_plain, h.action,
    hnul, hnewline, or_self, not_false_eq_true, and_self]

theorem text_fields (l : Line) : ∃ action index loop, strseps 8 (some l.text) =
    some [intText l.cnt, intText l.taskid, intText l.date, intText l.start, intText l.stop, action,
      index, loop] := by
  have hcommas : 2 ≤ (l.action ++ comma ::
      (intText l.idxnum ++ comma :: (intText l.cmdLoop ++ [newline]))).count comma := by
    simp only [List.count_append, List.count_cons_self]
    omega
  obtain ⟨ts, hts⟩ := Option.isSome_iff_exists.mp ((strseps_isSome 2 _).mpr hcommas)
  have hlen := strseps_length hts
  match ts, hlen with
  | [action, index, loop], _ =>
    refine ⟨action, index, loop, ?_⟩
    rw [Line.text, strseps_comma (intText_plain _).1, strseps_comma (intText_plain _).1,
      strseps_comma (intText_plain _).1, strseps_comma (intText_plain _).1,
      strseps_comma (intText_plain _).1, hts]
    rfl

theorem u32OfInt_eq {z : Int} (hlow : 0 ≤ z) (hhigh : z < 2 ^ 32) : (u32OfInt z : Int) = z := by
  rw [u32OfInt]
  omega

/-- A line is read as it is meant. -/
theorem readTask_text (h : l.Printable) {j : Fin 70} (hcnt : l.cnt = j + 1) (tasks : Tasks) :
    ∃ t : TaskInfo, t.From l ∧ readTask l.text tasks = some (Function.update tasks j t) := by
  have hday : secondsOfADay = 86400 := rfl
  obtain ⟨hstart, hstart'⟩ := h.start
  obtain ⟨hstop, hstop'⟩ := h.stop
  have hdate := h.date
  obtain ⟨action, index, loop, hfields⟩ := text_fields l
  have hidx : atoi (intText l.cnt) - 1 = j := by
    rw [atoi_intText (by omega) (by omega)]
    omega
  have hwrite : 0 + (strncpy action 19).length ≤ 20 := by
    rw [strncpy_length]
    decide
  have hj : (⟨((j.val : Int)).toNat, by omega⟩ : Fin 70) = j := Fin.ext (Int.toNat_natCast _)
  obtain ⟨text, htext⟩ := Block.write_fits (tasks j).action hwrite
  rw [readTask, hfields]
  dsimp only
  rw [dif_pos ⟨by omega, by omega⟩]
  simp only [hidx, hj, htext, Option.map_some]
  refine ⟨_, ⟨?_, ?_, ?_⟩, rfl⟩
  · dsimp only
    have hvalue := atoi_intText (z := l.date) (by omega) (by omega)
    have heq := u32OfInt_eq (z := l.date) (by omega) (by omega)
    rw [hvalue]
    exact Int.ofNat_inj.mp heq
  · dsimp only
    rw [atoi_intText (by omega) (by omega), u32OfInt_eq hstart (by omega)]
  · dsimp only
    rw [atoi_intText (by omega) (by omega), u32OfInt_eq hstop (by omega)]

theorem readTask_beyond (hcnt : 70 < l.cnt) (hlt : l.cnt < 2 ^ 31) (tasks : Tasks) :
    readTask l.text tasks = none := by
  have hhead : l.text.takeWhile (· != comma) = intText l.cnt := by
    refine takeWhile_word (fun c hc => bne_iff_ne.mpr fun heq => ?_) (by decide) _
    exact (intText_plain l.cnt).1 (heq ▸ hc)
  rw [← Option.not_isSome_iff_eq_none, readTask_isSome]
  intro h
  have hhigh := h.high
  rw [hhead, atoi_intText (by omega) (by omega)] at hhigh
  omega

/-- The lines are numbered one after the other. -/
def Numbered : Nat → List Line → Prop
  | _, [] => True
  | cnt, l :: lines => l.cnt = cnt + 1 ∧ Numbered (cnt + 1) lines

theorem numbered_append {cnt : Nat} {front back : List Line} :
    Numbered cnt (front ++ back) ↔ Numbered cnt front ∧ Numbered (cnt + front.length) back := by
  induction front generalizing cnt with
  | nil => simp [Numbered]
  | cons l front ih =>
    rw [List.cons_append, Numbered, Numbered, ih, and_assoc, List.length_cons]
    have hsum : cnt + 1 + front.length = cnt + (front.length + 1) := by omega
    rw [hsum]

theorem writeLines_append (lines : List Line) (s : Bytes) :
    writeLines lines 2 (some s) = some (s ++ (lines.map Line.text).flatten) := by
  induction lines generalizing s with
  | nil => simp [writeLines]
  | cons l lines ih =>
    rw [writeLines, writeLineToFile, if_neg (by decide), Option.map_some, ih, List.map_cons,
      List.flatten_cons, List.append_assoc]

theorem writeLines_file {lines : List Line} (hne : lines ≠ []) (file : Option Bytes) :
    writeLines lines 1 file = some (lines.map Line.text).flatten := by
  cases lines with
  | nil => exact absurd rfl hne
  | cons l lines =>
    rw [writeLines, writeLineToFile, if_pos rfl, writeLines_append, List.map_cons,
      List.flatten_cons]

theorem fgetsLines_texts {lines : List Line} (h : ∀ l ∈ lines, l.Printable ∧ l.cnt < 10 ^ 10)
    (s : Bytes) : fgetsLines 199 [] ((lines.map Line.text).flatten ++ s) =
      lines.map Line.text ++ fgetsLines 199 [] s := by
  induction lines with
  | nil => rfl
  | cons l lines ih =>
    obtain ⟨hprint, hcnt⟩ := h l List.mem_cons_self
    have hlen := body_length hprint hcnt
    rw [List.map_cons, List.flatten_cons, text_eq, List.append_assoc, List.append_assoc,
      List.singleton_append,
      fgetsLines_line (body_plain hprint).2 [] (by rw [List.nil_append]; omega),
      ih fun l' hl => h l' (List.mem_cons_of_mem l hl), List.nil_append, List.cons_append]

theorem numbered_range {cnt : Nat} {lines : List Line} (h : Numbered cnt lines) :
    ∀ l ∈ lines, cnt < l.cnt ∧ l.cnt ≤ cnt + lines.length := by
  induction lines generalizing cnt with
  | nil => exact fun l hl => absurd hl List.not_mem_nil
  | cons l lines ih =>
    obtain ⟨hhead, hrest⟩ := h
    rintro l' (_ | ⟨_, hl⟩)
    · rw [List.length_cons]
      omega
    · have hrange := ih hrest l' hl
      rw [List.length_cons]
      omega

theorem text_line (h : l.Printable) : cstr l.text = l.text ∧ l.text ≠ [] := by
  rw [text_eq]
  refine ⟨cstr_eq_self ?_, List.append_ne_nil_of_right_ne_nil _ (List.cons_ne_nil _ _)⟩
  rw [List.mem_append, not_or]
  exact ⟨(body_plain h).1, by decide⟩

theorem readTasks_cons (h : l.Printable) (lines : List Bytes) (tasks : Tasks) (taskSchk : Bool) :
    readTasks (l.text :: lines) tasks taskSchk =
      (readTask l.text tasks).bind fun tasks => readTasks lines tasks true := by
  rw [readTasks, (text_line h).1, if_neg (text_line h).2]

/-- Lines whose numbers lie in the array give its entries. -/
theorem readTasks_lines {cnt : Nat} {lines : List Line} (hnumbered : Numbered cnt lines)
    (hprint : ∀ l ∈ lines, l.Printable) (hfits : cnt + lines.length ≤ 70) (tasks : Tasks)
    (taskSchk : Bool) : ∃ tasks' taskSchk',
      readTasks (lines.map Line.text) tasks taskSchk = some (tasks', taskSchk') ∧
      (∀ l ∈ lines, ∀ j : Fin 70, l.cnt = j + 1 → (tasks' j).From l) ∧
      ∀ j : Fin 70, j.val < cnt → tasks' j = tasks j := by
  induction lines generalizing cnt tasks taskSchk with
  | nil => exact ⟨tasks, taskSchk, rfl, fun l hl => absurd hl List.not_mem_nil, fun _ _ => rfl⟩
  | cons l lines ih =>
    obtain ⟨hcnt, hrest⟩ := hnumbered
    rw [List.length_cons] at hfits
    have hl := hprint l List.mem_cons_self
    let j : Fin 70 := ⟨cnt, by omega⟩
    obtain ⟨t, hfrom, hread⟩ := readTask_text hl (j := j) hcnt tasks
    obtain ⟨tasks', taskSchk', hrun, hentries, hframe⟩ :=
      ih hrest (fun l' hl' => hprint l' (List.mem_cons_of_mem l hl')) (by omega)
        (Function.update tasks j t) true
    refine ⟨tasks', taskSchk', ?_, ?_, ?_⟩
    · rw [List.map_cons, readTasks_cons hl, hread, Option.bind_some, hrun]
    · rintro l' (_ | ⟨_, hl'⟩) i hi
      · have hij : i = j := Fin.ext (by change i.val = cnt; omega)
        rw [hij, hframe j (Nat.lt_succ_self cnt), Function.update_self]
        exact hfrom
      · exact hentries l' hl' i hi
    · intro i hi
      have hij : i ≠ j := fun heq => absurd (congrArg Fin.val heq) (Nat.ne_of_lt hi)
      rw [hframe i (Nat.lt_succ_of_lt hi), Function.update_of_ne hij]

/-- The line with the number 71 is a fault. -/
theorem readTasks_beyond {cnt : Nat} {lines : List Line} (hnumbered : Numbered cnt lines)
    (hprint : ∀ l ∈ lines, l.Printable) (hcnt : cnt ≤ 70) (hover : 70 < cnt + lines.length)
    (more : List Bytes) (tasks : Tasks) (taskSchk : Bool) :
    readTasks (lines.map Line.text ++ more) tasks taskSchk = none := by
  induction lines generalizing cnt tasks taskSchk with
  | nil =>
    rw [List.length_nil] at hover
    omega
  | cons l lines ih =>
    obtain ⟨hhead, hrest⟩ := hnumbered
    rw [List.length_cons] at hover
    have hl := hprint l List.mem_cons_self
    rw [List.map_cons, List.cons_append, readTasks_cons hl]
    rcases Nat.lt_or_eq_of_le hcnt with hlt | rfl
    · obtain ⟨t, -, hread⟩ := readTask_text hl (j := ⟨cnt, hlt⟩) hhead tasks
      rw [hread, Option.bind_some]
      exact ih hrest (fun l' hl' => hprint l' (List.mem_cons_of_mem l hl')) hlt (by omega) _ _
    · rw [readTask_beyond (by omega) (by omega)]
      rfl

theorem dayLines_numbered (k : Nat) (e : TimerTask) (cmdLoop cnt i : Nat) :
    Numbered cnt (dayLines k e cmdLoop cnt i) := by
  dsimp only [dayLines]
  split
  · exact ⟨rfl, rfl, trivial⟩
  · exact ⟨rfl, trivial⟩

theorem weekLines_numbered (k : Nat) (e : TimerTask) (cmdLoop : Nat) (days : List Nat)
    (cnt : Nat) : Numbered cnt (weekLines k e cmdLoop days cnt) := by
  induction days generalizing cnt with
  | nil => trivial
  | cons i days ih =>
    rw [weekLines]
    split
    · exact numbered_append.mpr ⟨dayLines_numbered k e cmdLoop cnt i, ih _⟩
    · exact ih cnt

theorem taskLines_numbered (table : List TimerTask) (k cnt cmdLoop : Nat) :
    Numbered cnt (taskLines table k cnt cmdLoop) := by
  induction table generalizing k cnt cmdLoop with
  | nil => trivial
  | cons e table ih =>
    rw [taskLines]
    split
    · exact numbered_append.mpr ⟨weekLines_numbered k e _ _ cnt, ih _ _ _⟩
    · exact ih _ _ _

/-- The interval begins on its day and ends on that day or the next one. -/
structure TimerTask.InRange (e : TimerTask) : Prop where
  order : e.timeoffset ≤ e.timeoffset2
  stop : e.timeoffset2 < 2 * secondsOfADay

theorem atoi_range (s : Bytes) : -(2 ^ 31) ≤ atoi s ∧ atoi s < 2 ^ 31 := by
  rw [atoi, strtol]
  dsimp only
  split
  · rw [max_def]
    split <;> omega
  · rw [min_def]
    split <;> omega

theorem s32_bounds (n : Nat) : -(2 ^ 31) ≤ s32 n ∧ s32 n < 2 ^ 31 := by
  have hlt := u32_lt n
  rw [s32]
  split <;> omega

/-- The second time's last byte ends the action at the latest. -/
theorem actionText_length {e : TimerTask} (h : e.InRange) : e.actionText.length ≤ 23 := by
  have hday : secondsOfADay = 86400 := rfl
  have hstop := h.stop
  have hzero : UInt8.ofNat (e.timeoffset2 / 256 / 256 / 256) = 0 := by
    have hquot : e.timeoffset2 / 256 / 256 / 256 = 0 := by omega
    rw [hquot]
    rfl
  have htime : leBytes 4 e.timeoffset2 = (leBytes 3 e.timeoffset2) ++ [0] := by
    simp only [leBytes, hzero, List.cons_append, List.nil_append]
  let front := e.action.1 ++ leBytes 3 e.timeoffset2
  have hhead : (e.taskid.1 ++ leBytes 4 e.timeoffset ++ leBytes 4 e.week ++
      leBytes 4 e.enable).length = 22 := by
    simp [e.taskid.2]
  have hbytes : e.bytes = (e.taskid.1 ++ leBytes 4 e.timeoffset ++ leBytes 4 e.week ++
      leBytes 4 e.enable) ++ ((front ++ [0]) ++ leBytes 4 e.idxnum) := by
    rw [TimerTask.bytes, htime]
    simp only [front, List.append_assoc]
  have hnul : (0 : UInt8) ∈ front ++ [0] := List.mem_append_right _ (List.mem_singleton_self 0)
  have hlen := strlen_lt_of_nul hnul
  have hfront : front.length = 23 := by simp [front, e.action.2]
  rw [TimerTask.actionText, hbytes, List.drop_left' hhead, cstr_append_of_nul hnul]
  rw [strlen, List.length_append, hfront, List.length_singleton] at hlen
  omega

theorem dayLines_printable {e : TimerTask} (h : e.InRange) (hplain : newline ∉ e.actionText)
    {k cmdLoop cnt i : Nat} (hloop : cmdLoop ≤ 1) (hi : i < 7) :
    ∀ l ∈ dayLines k e cmdLoop cnt i, l.Printable := by
  have hday : secondsOfADay = 86400 := rfl
  have horder := h.order
  have hstop := h.stop
  have hfirst : s32 e.timeoffset = e.timeoffset := s32_eq (by omega)
  have haction : (0 : UInt8) ∉ e.actionText ∧ newline ∉ e.actionText ∧ e.actionText.length ≤ 23 :=
    ⟨nul_not_mem_cstr _, hplain, actionText_length h⟩
  dsimp only [dayLines]
  split
  · rename_i hlong
    have hrest : s32 (e.timeoffset2 - secondsOfADay) = (e.timeoffset2 - secondsOfADay : Nat) :=
      s32_eq (by omega)
    have hnext : (if i ≤ 5 then i + 1 else 0) < 7 := by split <;> omega
    rintro l (_ | ⟨_, _ | ⟨_, hl⟩⟩)
    · exact ⟨atoi_range _, hi, by dsimp only; omega, by dsimp only; omega, haction, s32_bounds _,
        hloop⟩
    · exact ⟨atoi_range _, hnext, by dsimp only; omega, by dsimp only; omega, haction,
        s32_bounds _, hloop⟩
    · exact absurd hl List.not_mem_nil
  · have hsecond : s32 e.timeoffset2 = e.timeoffset2 := s32_eq (by omega)
    intro l hl
    rw [List.mem_singleton.mp hl]
    exact ⟨atoi_range _, hi, by dsimp only; omega, by dsimp only; omega, haction, s32_bounds _,
      hloop⟩

theorem mem_weekLines {k : Nat} {e : TimerTask} {cmdLoop : Nat} {days : List Nat} {cnt : Nat}
    (h : l ∈ weekLines k e cmdLoop days cnt) :
    ∃ i ∈ days, e.week.testBit i = true ∧ ∃ cnt', l ∈ dayLines k e cmdLoop cnt' i := by
  induction days generalizing cnt with
  | nil => exact absurd h List.not_mem_nil
  | cons i days ih =>
    have hlater : ∀ cnt', l ∈ weekLines k e cmdLoop days cnt' →
        ∃ i' ∈ i :: days, e.week.testBit i' = true ∧ ∃ cnt', l ∈ dayLines k e cmdLoop cnt' i' := by
      intro cnt' hl
      obtain ⟨i', hi', hrest⟩ := ih hl
      exact ⟨i', List.mem_cons_of_mem i hi', hrest⟩
    rw [weekLines] at h
    split at h
    · rename_i hbit
      rcases List.mem_append.mp h with hl | hl
      · exact ⟨i, List.mem_cons_self, hbit, cnt, hl⟩
      · exact hlater _ hl
    · exact hlater _ h

theorem dayLines_tags {k : Nat} {e : TimerTask} {cmdLoop cnt i : Nat}
    (h : l ∈ dayLines k e cmdLoop cnt i) : l.task = k ∧ l.weekday = i := by
  dsimp only [dayLines] at h
  split at h
  · rcases h with _ | ⟨_, _ | ⟨_, h⟩⟩
    · exact ⟨rfl, rfl⟩
    · exact ⟨rfl, rfl⟩
    · exact absurd h List.not_mem_nil
  · rw [List.mem_singleton.mp h]
    exact ⟨rfl, rfl⟩

/-- Every line of the table is a line of one of its enabled tasks. -/
theorem mem_taskLines {table : List TimerTask} {k cnt cmdLoop : Nat}
    (h : l ∈ taskLines table k cnt cmdLoop) :
    k ≤ l.task ∧ ∃ e ∈ table, e.enable ≠ 0 ∧ ∃ i < 7, e.week.testBit i = true ∧
      ∃ k' cmdLoop' cnt', (cmdLoop ≤ 1 → cmdLoop' ≤ 1) ∧ l ∈ dayLines k' e cmdLoop' cnt' i := by
  induction table generalizing k cnt cmdLoop with
  | nil => exact absurd h List.not_mem_nil
  | cons e table ih =>
    rw [taskLines] at h
    split at h
    · rename_i henable
      have hnext : cmdLoop ≤ 1 →
          (if e.enable = 1 then 1 else if e.enable = 2 then 0 else cmdLoop) ≤ 1 := by
        intro hloop
        split
        · omega
        · split <;> omega
      rcases List.mem_append.mp h with hl | hl
      · obtain ⟨i, hi, hbit, cnt', hday⟩ := mem_weekLines hl
        exact ⟨(dayLines_tags hday).1.ge, e, List.mem_cons_self, henable, i,
          List.mem_range.mp hi, hbit, k, _, cnt', hnext, hday⟩
      · obtain ⟨htask, e', he', henable', i, hi, hbit, k', cmdLoop', cnt', hloop, hday⟩ := ih hl
        exact ⟨by omega, e', List.mem_cons_of_mem e he', henable', i, hi, hbit, k', cmdLoop', cnt',
          fun h => hloop (hnext h), hday⟩
    · obtain ⟨htask, e', he', hrest⟩ := ih h
      exact ⟨by omega, e', List.mem_cons_of_mem e he', hrest⟩

theorem weekLines_day {k : Nat} {e : TimerTask} {cmdLoop i : Nat} {days : List Nat} {cnt : Nat}
    (hnodup : days.Nodup) (hi : i ∈ days) (hbit : e.week.testBit i = true) :
    ∃ cnt', ∀ l, l ∈ weekLines k e cmdLoop days cnt ∧ l.weekday = i ↔
      l ∈ dayLines k e cmdLoop cnt' i := by
  induction days generalizing cnt with
  | nil => exact absurd hi List.not_mem_nil
  | cons i' days ih =>
    obtain ⟨hnot, hnodup⟩ := List.nodup_cons.mp hnodup
    by_cases heq : i = i'
    · subst heq
      refine ⟨cnt, fun l => ?_⟩
      rw [weekLines, if_pos hbit, List.mem_append]
      constructor
      · rintro ⟨hl | hl, hday⟩
        · exact hl
        · obtain ⟨i', hi', -, cnt', hl'⟩ := mem_weekLines hl
          rw [← hday, (dayLines_tags hl').2] at hnot
          exact absurd hi' hnot
      · exact fun hl => ⟨.inl hl, (dayLines_tags hl).2⟩
    · have hi := (List.mem_cons.mp hi).resolve_left heq
      rw [weekLines]
      split
      · obtain ⟨cnt', hlater⟩ :=
          @ih (cnt + (dayLines k e cmdLoop cnt i').length) hnodup hi
        refine ⟨cnt', fun l => ?_⟩
        rw [← hlater, List.mem_append]
        constructor
        · rintro ⟨hl | hl, hday⟩
          · exact absurd (hday.symm.trans (dayLines_tags hl).2) heq
          · exact ⟨hl, hday⟩
        · exact fun hl => ⟨.inr hl.1, hl.2⟩
      · exact ih hnodup hi

/-- The lines of a task and a weekday are those that were written for them. -/
theorem taskLines_day {table : List TimerTask} (k cnt cmdLoop : Nat) {n : Nat} {e : TimerTask}
    (he : table[n]? = some e) (henable : e.enable ≠ 0) {i : Nat} (hi : i < 7)
    (hbit : e.week.testBit i = true) : ∃ cmdLoop' cnt', ∀ l,
      l ∈ taskLines table k cnt cmdLoop ∧ l.task = k + n ∧ l.weekday = i ↔
        l ∈ dayLines (k + n) e cmdLoop' cnt' i := by
  induction table generalizing k n cnt cmdLoop with
  | nil => cases he
  | cons e' table ih =>
    rw [taskLines]
    cases n with
    | zero =>
      cases he
      refine ⟨if e.enable = 1 then 1 else if e.enable = 2 then 0 else cmdLoop, ?_⟩
      obtain ⟨cnt', hday⟩ := weekLines_day List.nodup_range (List.mem_range.mpr hi) hbit
      refine ⟨cnt', fun l => ?_⟩
      rw [if_pos henable, Nat.add_zero, ← hday, List.mem_append]
      constructor
      · rintro ⟨hl | hl, htask, hweekday⟩
        · exact ⟨hl, hweekday⟩
        · have hle := (mem_taskLines hl).1
          omega
      · rintro ⟨hl, hweekday⟩
        obtain ⟨_, -, -, _, hl'⟩ := mem_weekLines hl
        exact ⟨.inl hl, (dayLines_tags hl').1, hweekday⟩
    | succ n =>
      have hsum : k + (n + 1) = k + 1 + n := by omega
      have he : table[n]? = some e := he
      rw [hsum]
      split
      · obtain ⟨cmdLoop', cnt', hlater⟩ := ih (k + 1) _ _ he
        refine ⟨cmdLoop', cnt', fun l => ?_⟩
        rw [← hlater, List.mem_append]
        constructor
        · rintro ⟨hl | hl, htags⟩
          · obtain ⟨_, -, -, _, hl'⟩ := mem_weekLines hl
            have htask := (dayLines_tags hl').1
            omega
          · exact ⟨hl, htags⟩
        · exact fun hl => ⟨.inr hl.1, hl.2⟩
      · exact ih (k + 1) _ _ he

/-- The second of a weekday lies in the line's window. -/
def Line.Contains (l : Line) (day : Fin 7) (second : Nat) : Prop :=
  l.date = day ∧ l.start ≤ second ∧ (second : Int) < l.stop

/-- An interval that ends before midnight has one line, which is right. -/
theorem short_contains {e : TimerTask} (h : e.InRange) (hshort : e.timeoffset2 < secondsOfADay)
    {k cmdLoop cnt : Nat} (selected day : Fin 7) (second : Nat) :
    (∃ l ∈ dayLines k e cmdLoop cnt selected, l.Contains day second) ↔
      e.Contains selected day second := by
  have hday : secondsOfADay = 86400 := rfl
  have horder := h.order
  have hfirst : s32 e.timeoffset = e.timeoffset := s32_eq (by omega)
  have hsecond : s32 e.timeoffset2 = e.timeoffset2 := s32_eq (by omega)
  dsimp only [dayLines]
  rw [if_neg (by omega), List.exists_mem_cons_iff, Line.Contains, TimerTask.Contains, hfirst,
    hsecond, Fin.ext_iff]
  simp only [List.not_mem_nil, false_and, exists_false, or_false]
  omega

theorem next_day (i : Fin 7) : (if i.val ≤ 5 then i.val + 1 else 0) = (i + 1 : Fin 7).val := by
  revert i
  decide

theorem next_day_iff : ∀ day selected : Fin 7,
    day = selected + 1 ↔ day.val = (selected.val + 1) % 7 := by
  decide

/-- What the two lines of an interval across midnight contain. -/
theorem long_contains {e : TimerTask} (h : e.InRange) (hlong : secondsOfADay ≤ e.timeoffset2)
    {k cmdLoop cnt : Nat} (selected day : Fin 7) (second : Nat) :
    (∃ l ∈ dayLines k e cmdLoop cnt selected, l.Contains day second) ↔
      (day = selected ∧ e.timeoffset ≤ second ∧ second + 1 < secondsOfADay) ∨
        (day = selected + 1 ∧ second + secondsOfADay < e.timeoffset2) := by
  have hday : secondsOfADay = 86400 := rfl
  have hstop := h.stop
  have horder := h.order
  have hfirst : s32 e.timeoffset = e.timeoffset := s32_eq (by omega)
  have hrest : s32 (e.timeoffset2 - secondsOfADay) = (e.timeoffset2 - secondsOfADay : Nat) :=
    s32_eq (by omega)
  dsimp only [dayLines]
  rw [if_pos hlong, List.exists_mem_cons_iff, List.exists_mem_cons_iff, Line.Contains,
    Line.Contains, hfirst, hrest, Fin.ext_iff, Fin.ext_iff]
  dsimp only
  rw [next_day]
  simp only [List.not_mem_nil, false_and, exists_false, or_false]
  omega

theorem after_ne : ∀ day : Fin 7, day ≠ day + 1 := by decide

/-- The lines of a weekday are right when the interval ends before midnight or begins at it. -/
theorem contains_iff {e : TimerTask} (h : e.InRange) (k cmdLoop cnt : Nat) (selected : Fin 7) :
    (∀ (day : Fin 7) (second : Nat), second < secondsOfADay →
      ((∃ l ∈ dayLines k e cmdLoop cnt selected, l.Contains day second) ↔
        e.Contains selected day second)) ↔
      e.timeoffset2 < secondsOfADay ∨ e.timeoffset = secondsOfADay := by
  have hday : secondsOfADay = 86400 := rfl
  have horder := h.order
  rcases Nat.lt_or_ge e.timeoffset2 secondsOfADay with hshort | hlong
  · exact iff_of_true (fun day second _ => short_contains h hshort selected day second)
      (.inl hshort)
  rw [or_iff_right (Nat.not_lt.mpr hlong)]
  constructor
  · intro hall
    rcases Nat.lt_trichotomy e.timeoffset secondsOfADay with hbefore | hmidnight | hafter
    · -- The last second before midnight is in the interval, but in no line.
      have hlast := (hall selected (secondsOfADay - 1) (by omega)).mpr
        (.inl ⟨rfl, by omega, by omega⟩)
      rcases (long_contains h hlong selected selected _).mp hlast with ⟨-, -, hstop⟩ | ⟨hnext, -⟩
      · omega
      · exact absurd hnext (after_ne selected)
    · exact hmidnight
    · -- The first second of the next day is in the second line, but not in the interval.
      have hfirst := (hall (selected + 1) 0 (by omega)).mp
        ((long_contains h hlong selected _ _).mpr (.inr ⟨rfl, by omega⟩))
      rcases hfirst with ⟨hsame, -⟩ | ⟨-, hstart, -⟩
      · exact absurd hsame.symm (after_ne selected)
      · omega
  · intro hmidnight day second hsecond
    rw [long_contains h hlong, TimerTask.Contains, hmidnight, ← next_day_iff]
    omega

/-- How many lines there are. -/
def lineCount (table : List TimerTask) : Nat :=
  ((table.filter (·.enable != 0)).map fun e =>
    (List.range 7).countP (e.week.testBit ·) *
      if secondsOfADay ≤ e.timeoffset2 then 2 else 1).sum

theorem weekLines_length (k : Nat) (e : TimerTask) (cmdLoop : Nat) (days : List Nat) (cnt : Nat) :
    (weekLines k e cmdLoop days cnt).length = days.countP (e.week.testBit ·) *
      if secondsOfADay ≤ e.timeoffset2 then 2 else 1 := by
  have hday : ∀ cnt i, (dayLines k e cmdLoop cnt i).length =
      if secondsOfADay ≤ e.timeoffset2 then 2 else 1 := by
    intro cnt i
    dsimp only [dayLines]
    split <;> rfl
  induction days generalizing cnt with
  | nil => simp [weekLines]
  | cons i days ih =>
    rw [weekLines, List.countP_cons]
    split
    · rw [List.length_append, ih, hday, Nat.add_mul, Nat.one_mul, Nat.add_comm]
    · rw [ih, Nat.add_zero]

theorem taskLines_length (table : List TimerTask) (k cnt cmdLoop : Nat) :
    (taskLines table k cnt cmdLoop).length = lineCount table := by
  induction table generalizing k cnt cmdLoop with
  | nil => rfl
  | cons e table ih =>
    rw [taskLines, lineCount, List.filter_cons]
    by_cases henable : e.enable = 0
    · rw [if_neg (not_not_intro henable), ih, henable]
      rfl
    · rw [if_pos henable, if_pos (bne_iff_ne.mpr henable), List.length_append, ih,
        weekLines_length]
      rfl

/-- No interval runs across midnight, except one that begins at it; the lines fit the array; and
if there is none, a file that is still there can be read. -/
structure Fits (table : List TimerTask) (file : Option Bytes) : Prop where
  midnight : ∀ e ∈ table, e.enable ≠ 0 → (∃ i : Fin 7, e.week.testBit i = true) →
    e.timeoffset2 < secondsOfADay ∨ e.timeoffset = secondsOfADay
  room : lineCount table ≤ 70
  old : lineCount table = 0 → ∀ s, file = some s →
    ∀ line ∈ fgetsLines 199 [] s, cstr line = [] ∨ WellFormed (cstr line)

variable {table : List TimerTask} {file : Option Bytes}

/-- A file can be read when each of its lines can. -/
theorem readTasks_isSome (lines : List Bytes) (tasks : Tasks) (taskSchk : Bool) :
    (readTasks lines tasks taskSchk).isSome = true ↔
      ∀ line ∈ lines, cstr line = [] ∨ WellFormed (cstr line) := by
  induction lines generalizing tasks taskSchk with
  | nil => simp [readTasks]
  | cons line lines ih =>
    rw [readTasks, List.forall_mem_cons]
    by_cases hempty : cstr line = []
    · rw [if_pos hempty, ih, or_iff_left_of_imp (fun _ => hempty)]
      exact (and_iff_right hempty).symm
    · rw [if_neg hempty, or_iff_right hempty, ← readTask_isSome (cstr line) tasks]
      cases readTask (cstr line) tasks with
      | none => simp
      | some tasks' =>
        rw [Option.bind_some, ih]
        simp

/-- A line of the table is printable and has its place. -/
theorem taskLines_printable (hrange : ∀ e ∈ table, e.InRange)
    (hplain : ∀ e ∈ table, e.enable ≠ 0 → newline ∉ e.actionText) :
    ∀ l ∈ taskLines table 0 0 0, l.Printable := by
  intro l hl
  obtain ⟨-, e, he, henable, i, hi, -, k, cmdLoop, cnt, hloop, hday⟩ := mem_taskLines hl
  exact dayLines_printable (hrange e he) (hplain e he henable) (hloop (Nat.zero_le 1)) hi l hday

/-- Without a line the old file is read, and there is nothing to cover. -/
theorem kept_old (tasks : Tasks) (hcount : lineCount table = 0) :
    Kept table file tasks ↔ Fits table file := by
  have hlines : taskLines table 0 0 0 = [] := by
    rw [← List.length_eq_zero_iff, taskLines_length, hcount]
  have hnone : ∀ e ∈ table, e.enable ≠ 0 → ∀ i : Fin 7, e.week.testBit i ≠ true := by
    intro e he henable i hbit
    obtain ⟨n, hn, rfl⟩ := List.mem_iff_getElem.mp he
    obtain ⟨cmdLoop, cnt, hday⟩ := taskLines_day 0 0 0
      (List.getElem?_eq_getElem hn) henable i.isLt hbit
    have hempty : dayLines (0 + n) table[n] cmdLoop cnt i = [] := by
      rw [List.eq_nil_iff_forall_not_mem]
      intro l hl
      have hmem := ((hday l).mpr hl).1
      rw [hlines] at hmem
      exact List.not_mem_nil hmem
    dsimp only [dayLines] at hempty
    split at hempty <;> cases hempty
  have hread : (∃ tasks' taskSchk, andlinkGetTasktimerFromFile file tasks =
      some (tasks', taskSchk)) ↔ ∀ s, file = some s →
        ∀ line ∈ fgetsLines 199 [] s, cstr line = [] ∨ WellFormed (cstr line) := by
    cases file with
    | none => exact iff_of_true ⟨tasks, false, rfl⟩ fun s hs => by cases hs
    | some s =>
      rw [andlinkGetTasktimerFromFile]
      have hsome := readTasks_isSome (fgetsLines 199 [] s) tasks false
      rw [Option.isSome_iff_exists, Prod.exists] at hsome
      rw [hsome]
      exact ⟨fun h s' hs => Option.some.inj hs ▸ h, fun h => h s rfl⟩
  rw [Kept, andlinkSetupTasktimer, hlines]
  constructor
  · rintro ⟨tasks', taskSchk, hget, -⟩
    refine ⟨fun e he henable ⟨i, hbit⟩ => absurd hbit (hnone e he henable i), by omega, ?_⟩
    exact fun _ => hread.mp ⟨tasks', taskSchk, hget⟩
  · intro h
    obtain ⟨tasks', taskSchk, hget⟩ := hread.mpr (h.old hcount)
    refine ⟨tasks', taskSchk, hget, fun k e he henable selected hbit => ?_⟩
    exact absurd hbit (hnone e (List.mem_of_getElem? he) henable selected)

/-- More lines than the array has entries are a fault. -/
theorem get_beyond (hprint : ∀ l ∈ taskLines table 0 0 0, l.Printable)
    (hcount : 70 < lineCount table) (tasks : Tasks) :
    andlinkGetTasktimerFromFile (andlinkSetupTasktimer table file) tasks = none := by
  have hlen := taskLines_length table 0 0 0
  have hne : taskLines table 0 0 0 ≠ [] := List.ne_nil_of_length_pos (by omega)
  have hnumbered := taskLines_numbered table 0 0 0
  -- The first 71 lines are enough, and their numbers are short.
  rw [← List.take_append_drop 71 (taskLines table 0 0 0)] at hnumbered
  have hfront := (numbered_append.mp hnumbered).1
  have htake : ∀ l ∈ (taskLines table 0 0 0).take 71, l.Printable :=
    fun l hl => hprint l (List.mem_of_mem_take hl)
  have hsize : ((taskLines table 0 0 0).take 71).length = 71 := by
    rw [List.length_take]
    omega
  have hshort : ∀ l ∈ (taskLines table 0 0 0).take 71, l.Printable ∧ l.cnt < 10 ^ 10 := by
    intro l hl
    have hrange := (numbered_range hfront l hl).2
    exact ⟨htake l hl, by omega⟩
  rw [andlinkSetupTasktimer, writeLines_file hne, andlinkGetTasktimerFromFile]
  rw [← List.take_append_drop 71 (taskLines table 0 0 0), List.map_append, List.flatten_append,
    fgetsLines_texts hshort]
  exact readTasks_beyond hfront htake (by decide) (by omega) _ _ _

/-- Lines that fit give the entries of the array. -/
theorem get_lines (file : Option Bytes) (hprint : ∀ l ∈ taskLines table 0 0 0, l.Printable)
    (hne : taskLines table 0 0 0 ≠ []) (hcount : lineCount table ≤ 70) (tasks : Tasks) :
    ∃ tasks' taskSchk,
      andlinkGetTasktimerFromFile (andlinkSetupTasktimer table file) tasks =
        some (tasks', taskSchk) ∧
      ∀ l ∈ taskLines table 0 0 0, ∃ j : Fin 70, j.val + 1 = l.cnt ∧ (tasks' j).From l := by
  have hlen := taskLines_length table 0 0 0
  have hnumbered := taskLines_numbered table 0 0 0
  have hshort : ∀ l ∈ taskLines table 0 0 0, l.Printable ∧ l.cnt < 10 ^ 10 := by
    intro l hl
    have hrange := (numbered_range hnumbered l hl).2
    exact ⟨hprint l hl, by omega⟩
  obtain ⟨tasks', taskSchk, hrun, hentries, -⟩ :=
    readTasks_lines hnumbered hprint (by omega) tasks false
  refine ⟨tasks', taskSchk, ?_, fun l hl => ?_⟩
  · have hread := fgetsLines_texts hshort []
    rw [List.append_nil, fgetsLines, if_pos rfl, List.append_nil] at hread
    rw [andlinkSetupTasktimer, writeLines_file hne, andlinkGetTasktimerFromFile,
      hread, hrun]
  · obtain ⟨hlow, hhigh⟩ := numbered_range hnumbered l hl
    let j : Fin 70 := ⟨l.cnt - 1, by omega⟩
    have hj : l.cnt = j + 1 := by
      change l.cnt = l.cnt - 1 + 1
      omega
    exact ⟨j, hj.symm, hentries l hl j hj⟩

/-- The own entries have the windows of the lines. -/
theorem own_contains {lines day : List Line} {tasks : Tasks} {k : Nat} {selected : Fin 7}
    (hentries : ∀ l ∈ lines, ∃ j : Fin 70, j.val + 1 = l.cnt ∧ (tasks j).From l)
    (hday : ∀ l, l ∈ lines ∧ l.task = k ∧ l.weekday = selected ↔ l ∈ day) (weekday : Fin 7)
    (second : Nat) : (∃ t ∈ own lines tasks k selected, t.Contains weekday second) ↔
      ∃ l ∈ day, l.Contains weekday second := by
  have hsame : ∀ (t : TaskInfo) (l : Line), t.From l →
      (t.Contains weekday second ↔ l.Contains weekday second) := by
    intro t l hfrom
    rw [TaskInfo.Contains, Line.Contains, hfrom.date, ← hfrom.fTime, ← hfrom.tTime,
      Int.ofNat_le, Int.ofNat_lt]
  have hplace : ∀ l ∈ lines, ∀ j : Fin 70, j.val + 1 = l.cnt → (tasks j).From l := by
    intro l hl j hj
    obtain ⟨j', hj', hfrom⟩ := hentries l hl
    have heq : j = j' := Fin.ext (by omega)
    exact heq ▸ hfrom
  constructor
  · rintro ⟨t, ⟨l, hl, htask, hweekday, j, hj, rfl⟩, hcontains⟩
    exact ⟨l, (hday l).mp ⟨hl, htask, hweekday⟩, (hsame _ l (hplace l hl j hj)).mp hcontains⟩
  · rintro ⟨l, hl, hcontains⟩
    obtain ⟨hmem, htask, hweekday⟩ := (hday l).mpr hl
    obtain ⟨j, hj, hfrom⟩ := hentries l hmem
    exact ⟨tasks j, ⟨l, hmem, htask, hweekday, j, hj, rfl⟩, (hsame _ l hfrom).mpr hcontains⟩

theorem own_cover (hrange : ∀ e ∈ table, e.InRange) {tasks : Tasks}
    (hentries : ∀ l ∈ taskLines table 0 0 0, ∃ j : Fin 70, j.val + 1 = l.cnt ∧ (tasks j).From l)
    {n : Nat} {e : TimerTask} (he : table[n]? = some e) (henable : e.enable ≠ 0)
    {selected : Fin 7} (hbit : e.week.testBit selected = true) :
    (∀ (day : Fin 7) (second : Nat), second < secondsOfADay →
      ((∃ t ∈ own (taskLines table 0 0 0) tasks n selected, t.Contains day second) ↔
        e.Contains selected day second)) ↔
      e.timeoffset2 < secondsOfADay ∨ e.timeoffset = secondsOfADay := by
  obtain ⟨cmdLoop, cnt, hday⟩ := taskLines_day 0 0 0 he henable
    selected.isLt hbit
  rw [Nat.zero_add] at hday
  have hlines := contains_iff (hrange e (List.mem_of_getElem? he)) n cmdLoop cnt selected
  rw [← hlines]
  simp only [own_contains hentries hday]

/-- Actions without a line break: the tasks arrive in the array exactly when they fit. -/
theorem kept_iff (hrange : ∀ e ∈ table, e.InRange)
    (hplain : ∀ e ∈ table, e.enable ≠ 0 → newline ∉ e.actionText) (tasks : Tasks) :
    Kept table file tasks ↔ Fits table file := by
  by_cases hzero : lineCount table = 0
  · exact kept_old tasks hzero
  have hprint := taskLines_printable hrange hplain
  have hne : taskLines table 0 0 0 ≠ [] := by
    rw [ne_eq, ← List.length_eq_zero_iff, taskLines_length]
    exact hzero
  rcases Nat.lt_or_ge 70 (lineCount table) with hover | hroom
  · refine iff_of_false ?_ fun h => Nat.not_lt.mpr h.room hover
    rintro ⟨tasks', taskSchk, hget, -⟩
    rw [get_beyond hprint hover] at hget
    cases hget
  obtain ⟨tasks', taskSchk, hget, hentries⟩ := get_lines file hprint hne hroom tasks
  constructor
  · rintro ⟨tasks'', taskSchk', hget', hkept⟩
    rw [hget] at hget'
    cases hget'
    refine ⟨?_, hroom, fun h => absurd h hzero⟩
    intro e he henable ⟨i, hbit⟩
    obtain ⟨n, hn⟩ := List.mem_iff_getElem?.mp he
    exact (own_cover hrange hentries hn henable hbit).mp (hkept n e hn henable i hbit)
  · intro h
    refine ⟨tasks', taskSchk, hget, fun n e he henable selected hbit => ?_⟩
    exact (own_cover hrange hentries he henable hbit).mpr
      (h.midnight e (List.mem_of_getElem? he) henable ⟨selected, hbit⟩)

/-- An array without a task. -/
def noTasks : Tasks := fun _ => ⟨0, 0, 0, Block.zeros 20, 0, 0, 0⟩

/-- `ToSetHealthMode` on Sundays in the given interval. -/
def sundayTask (timeoffset timeoffset2 : Nat) : TimerTask :=
  ⟨⟨strncpy (ascii "1") 10, by decide⟩, timeoffset, 1, 1,
    ⟨strncpy (ascii "ToSetHealthMode") 20, by decide⟩, timeoffset2, 0⟩

/-- From 1:00 to 5:00. -/
theorem morning_kept : Kept [sundayTask 3600 18000] none noTasks := by
  refine (kept_iff ?_ ?_ noTasks).mpr ⟨?_, by decide, fun _ s hs => by cases hs⟩
  · rw [List.forall_mem_singleton]
    exact ⟨by decide, by decide⟩
  · rw [List.forall_mem_singleton]
    decide
  · rw [List.forall_mem_singleton]
    exact fun _ _ => .inl (by decide)

/-- From 23:00 to 1:00: the last second before midnight is left out. -/
theorem night_not_kept : ¬Kept [sundayTask 82800 90000] none noTasks := by
  have hrange : ∀ e ∈ [sundayTask 82800 90000], e.InRange := by
    rw [List.forall_mem_singleton]
    exact ⟨by decide, by decide⟩
  have hplain : ∀ e ∈ [sundayTask 82800 90000], e.enable ≠ 0 → newline ∉ e.actionText := by
    rw [List.forall_mem_singleton]
    decide
  obtain ⟨tasks', taskSchk, hget, hentries⟩ := get_lines none
    (taskLines_printable hrange hplain) (List.cons_ne_nil _ _) (by decide) noTasks
  rintro ⟨tasks'', taskSchk', hget', hkept⟩
  rw [hget] at hget'
  cases hget'
  have hsunday : (sundayTask 82800 90000).week.testBit (0 : Fin 7).val = true := rfl
  have hcover := (own_cover hrange hentries (n := 0) rfl (by decide) hsunday).mp
    (hkept 0 _ rfl (by decide) 0 hsunday)
  exact absurd hcover (by decide)

end TaskTimers
