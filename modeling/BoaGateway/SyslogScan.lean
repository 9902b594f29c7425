import BoaGateway.Texts

/-!
# The lines that `slogd` makes of a datagram

`serveConnection` goes over the datagram with one pointer: it reads a priority, copies bytes into
a line, and ends the line at a zero byte or when it is full. Each byte carries its index in the
datagram, which is no value of the program, so that it can be said which bytes a line is made of.
`logMessage` takes the front of a line for a time stamp.
-/

namespace SyslogScan

open ByteBlocks Texts

/-- A byte of the datagram and its index. -/
abbrev Cell := UInt8 × Nat

def maxLine : Nat := 1024

/-- `LOG_USER | LOG_NOTICE`. -/
def logUserNotice : Nat := 13

def isDigit (c : Cell) : Bool := 48 ≤ c.1 && c.1 ≤ 57

def digitValue (c : Cell) : Nat := (c.1 - 48).toNat

/-- What a byte is copied as. -/
def expand (c : UInt8) : Bytes :=
  if c = 10 then [32] else if c < 32 then [94, c ^^^ 64] else [c]

/-- `line` up to `q`, and the cells that its bytes are made of. -/
structure Line where
  text : Bytes
  src : List Cell

def Line.empty : Line := ⟨[], []⟩

/-- The bytes for a cell are stored, each within the `MAXLINE + 1` bytes of `line`. -/
def Line.add (l : Line) (c : Cell) : Option Line :=
  if l.text.length + (expand c.1).length ≤ maxLine + 1 then
    some ⟨l.text ++ expand c.1, l.src ++ [c]⟩
  else none

/-- The digits of a priority; what stands behind them begins with the byte that ended the loop.
A number beyond `int` has no result, nor has a read behind the terminator. -/
def readPri (pri : Nat) : List Cell → Option (Nat × List Cell)
  | [] => none
  | c :: p =>
    if isDigit c then
      if 10 * pri + digitValue c < 2 ^ 31 then readPri (10 * pri + digitValue c) p else none
    else some (pri, c :: p)

theorem readPri_length {pri v : Nat} {p r : List Cell} (h : readPri pri p = some (v, r)) :
    r.length ≤ p.length := by
  induction p generalizing pri with
  | nil => cases h
  | cons c p ih =>
    rw [readPri] at h
    split at h
    · split at h
      · exact le_trans (ih h) (Nat.le_succ _)
      · cases h
    · cases h
      exact le_rfl

/-- How the inner loop ends: the function returns, or there is a line. -/
inductive Scanned where
  | returned
  | line (pri : Nat) (priSet : Bool) (l : Line) (p : List Cell)

/-- The inner loop; the last argument is what `p` points to. -/
def scan (logLevel : Int) (priSet : Bool) (pri : Nat) (l : Line) (p : List Cell) :
    Option Scanned :=
  if maxLine ≤ l.text.length then some (.line pri priSet l p)
  else
    match p with
    | [] => none
    | c :: p =>
      if priSet = false ∧ c.1 = 60 then
        match _h : readPri 0 p with
        | none => none
        | some (v, r) =>
          if logLevel < (v % 8 : Nat) then some .returned
          -- the byte behind the digits is skipped, whatever it is
          else scan logLevel true (if v < 1024 then v else logUserNotice) l r.tail
      else if c.1 = 0 then some (.line pri false l p)
      else
        match l.add c with
        | none => none
        | some l' => scan logLevel priSet pri l' p
termination_by p.length
decreasing_by
  · have hlen := readPri_length _h
    rw [List.length_tail, List.length_cons]
    omega
  · exact Nat.lt_succ_self _

/-- What `logMessage` writes. `logpri` is a static text and stands here for the priority that it
was made from. -/
structure Record where
  pri : Nat
  logpri : Option Nat
  timestamp : Bytes
  msg : Bytes
  src : List Cell

/-- `logMessage`, with what `line` holds behind the text. -/
def logMessage (pri : Nat) (l : Line) (stack : Block 1025) (logpri : Option Nat) :
    Option Record :=
  let line := l.text ++ 0 :: stack.1.drop (l.text.length + 1)
  if (0 : UInt8) ∈ line.drop 16 then
    some
      { pri := pri
        logpri := if pri = 0 then logpri else some pri
        timestamp := cstr (line.set 15 0)
        msg := cstr (line.drop 16)
        src := l.src }
  else none

theorem scan_length {logLevel : Int} {priSet priSet' : Bool} {pri pri' : Nat} {l l' : Line}
    {p r : List Cell} (h : scan logLevel priSet pri l p = some (.line pri' priSet' l' r)) :
    r.length ≤ p.length ∧ (l.text.length < maxLine → r.length < p.length) := by
  fun_induction scan logLevel priSet pri l p with
  | case1 priSet pri l p hfull =>
    cases h
    exact ⟨le_rfl, fun hlt => absurd hlt (Nat.not_lt_of_le hfull)⟩
  | case2 priSet pri l hroom => cases h
  | case3 priSet pri l hroom c p hc hread => cases h
  | case4 priSet pri l hroom c p hc v r hread hlevel => cases h
  | case5 priSet pri l hroom c p hc v r hread hlevel ih =>
    have hlen := readPri_length hread
    have htail := (ih h).1
    rw [List.length_tail] at htail
    rw [List.length_cons]
    omega
  | case6 priSet pri l hroom c p hc hzero =>
    cases h
    rw [List.length_cons]
    omega
  | case7 priSet pri l hroom c p hc hzero hadd => cases h
  | case8 priSet pri l hroom c p hc hzero l' hadd ih =>
    have hle := (ih h).1
    rw [List.length_cons]
    omega

/-- The outer loop. What `line` holds before its bytes are written depends on the round. -/
def serve (logLevel : Int) (stack : Nat → Block 1025) (priSet : Bool) (logpri : Option Nat)
    (p : List Cell) : Option (List Record) :=
  if p.length < 2 then some []
  else
    match _h : scan logLevel priSet logUserNotice .empty p with
    | none => none
    | some .returned => some []
    | some (.line pri priSet' l r) =>
      -- `*q = '\0'`
      if maxLine < l.text.length then none
      else if l.text = [] then serve logLevel stack priSet' logpri r.tail
      else
        match logMessage pri l (stack p.length) logpri with
        | none => none
        | some rec => (serve logLevel stack priSet' rec.logpri r.tail).map (rec :: ·)
termination_by p.length
decreasing_by
  all_goals
    have hlen := (scan_length _h).2 (by decide)
    rw [List.length_tail]
    omega

/-- `serveConnection`, for a datagram that is read into a buffer with room for one byte more. -/
def serveConnection (logLevel : Int) (stack : Nat → Block 1025) (logpri : Option Nat)
    (datagram : Bytes) : Option (List Record) :=
  serve logLevel stack false logpri (datagram ++ [0]).zipIdx

/-- What cells are copied as. -/
def textOf (src : List Cell) : Bytes := src.flatMap fun c => expand c.1

def Line.append (l : Line) (src : List Cell) : Line := ⟨l.text ++ textOf src, l.src ++ src⟩

@[simp] theorem textOf_nil : textOf [] = [] := rfl

@[simp] theorem textOf_cons (c : Cell) (src : List Cell) :
    textOf (c :: src) = expand c.1 ++ textOf src := rfl

@[simp] theorem textOf_append (a b : List Cell) : textOf (a ++ b) = textOf a ++ textOf b :=
  List.flatMap_append

@[simp] theorem append_nil (l : Line) : l.append [] = l := by simp [Line.append]

theorem append_append (l : Line) (a b : List Cell) :
    (l.append a).append b = l.append (a ++ b) := by
  simp [Line.append]

theorem append_cons (l : Line) (c : Cell) (src : List Cell) :
    (l.append [c]).append src = l.append (c :: src) := append_append l [c] src

theorem expand_length (c : UInt8) : 1 ≤ (expand c).length ∧ (expand c).length ≤ 2 := by
  unfold expand
  split
  · simp
  split
  · simp
  · simp

theorem expand_nul_free {c : UInt8} (hc : c ≠ 0) : (0 : UInt8) ∉ expand c := by
  unfold expand
  split
  · decide
  split
  · rename_i hctrl
    intro hmem
    have hxor : c ^^^ 64 = 0 := by simpa [eq_comm] using hmem
    rw [UInt8.xor_eq_zero_iff] at hxor
    subst hxor
    exact absurd hctrl (by decide)
  · simpa using hc.symm

theorem textOf_nul_free {src : List Cell} (h : ∀ c ∈ src, c.1 ≠ 0) : (0 : UInt8) ∉ textOf src := by
  intro hmem
  obtain ⟨c, hc, hzero⟩ := List.mem_flatMap.mp hmem
  exact expand_nul_free (h c hc) hzero

theorem textOf_eq_nil_iff {src : List Cell} : textOf src = [] ↔ src = [] := by
  cases src with
  | nil => simp
  | cons c src =>
    have hlen := (expand_length c.1).1
    simp only [textOf_cons, List.append_eq_nil_iff, reduceCtorEq, iff_false, not_and]
    intro hnil
    rw [hnil] at hlen
    exact absurd hlen (by decide)

variable {logLevel : Int} {priSet : Bool} {pri : Nat} {l : Line} {c : Cell} {p q : List Cell}

theorem scan_of_full (h : maxLine ≤ l.text.length) :
    scan logLevel priSet pri l p = some (.line pri priSet l p) := by
  rw [scan.eq_def, if_pos h]

theorem scan_nul (h : l.text.length < maxLine) (hc : c.1 = 0) :
    scan logLevel priSet pri l (c :: p) = some (.line pri false l p) := by
  rw [scan, if_neg (Nat.not_le_of_lt h), if_neg (by simp [hc]), if_pos hc]

/-- A byte that is copied always has room. -/
theorem scan_cell (h : l.text.length < maxLine) (hnul : c.1 ≠ 0)
    (hlt : priSet = false → c.1 ≠ 60) :
    scan logLevel priSet pri l (c :: p) = scan logLevel priSet pri (l.append [c]) p := by
  have hadd : l.add c = some (l.append [c]) := by
    have hlen := (expand_length c.1).2
    rw [Line.add, if_pos (by omega)]
    simp [Line.append]
  rw [scan, if_neg (Nat.not_le_of_lt h), if_neg fun hpri => hlt hpri.1 hpri.2, if_neg hnul]
  split
  · rename_i hnone
    cases hnone.symm.trans hadd
  · rename_i l' hsome
    cases hsome.symm.trans hadd
    rfl

theorem scan_pri (h : l.text.length < maxLine) (hc : c.1 = 60) :
    scan logLevel false pri l (c :: p) =
      match readPri 0 p with
      | none => none
      | some (v, r) =>
        if logLevel < (v % 8 : Nat) then some .returned
        else scan logLevel true (if v < 1024 then v else logUserNotice) l r.tail := by
  rw [scan, if_neg (Nat.not_le_of_lt h), if_pos (by simp [hc])]
  split
  · rename_i hnone
    rw [hnone]
  · rename_i v r hsome
    rw [hsome]

/-- Bytes that fit are copied. -/
theorem scan_copy {a : List Cell} (hnul : ∀ c ∈ a, c.1 ≠ 0)
    (hlt : priSet = false → ∀ c ∈ a, c.1 ≠ 60)
    (hfit : l.text.length + (textOf a).length ≤ maxLine) :
    scan logLevel priSet pri l (a ++ q) = scan logLevel priSet pri (l.append a) q := by
  induction a generalizing l with
  | nil => rw [append_nil, List.nil_append]
  | cons c a ih =>
    have hlen := (expand_length c.1).1
    simp only [textOf_cons, List.length_append] at hfit
    have hroom : l.text.length < maxLine := by omega
    obtain ⟨hc, ha⟩ := List.forall_mem_cons.mp hnul
    have hnext : (l.append [c]).text.length + (textOf a).length ≤ maxLine := by
      simp only [Line.append, textOf_cons, textOf_nil, List.length_append, List.length_nil]
      omega
    rw [List.cons_append, scan_cell hroom hc fun h => hlt h c List.mem_cons_self,
      ih ha (fun h c hc => hlt h c (List.mem_cons_of_mem _ hc)) hnext, append_cons]

/-- Bytes that do not fit fill the line. -/
theorem scan_full {a : List Cell} (hnul : ∀ c ∈ a, c.1 ≠ 0)
    (hlt : priSet = false → ∀ c ∈ a, c.1 ≠ 60)
    (hover : maxLine < l.text.length + (textOf a).length) :
    ∃ front back, a = front ++ back ∧ maxLine ≤ (l.append front).text.length ∧
      scan logLevel priSet pri l (a ++ q) =
        some (.line pri priSet (l.append front) (back ++ q)) := by
  induction a generalizing l with
  | nil =>
    have hfull : maxLine ≤ l.text.length := by
      rw [textOf_nil, List.length_nil] at hover
      omega
    exact ⟨[], [], rfl, by rwa [append_nil], by rw [append_nil]; exact scan_of_full hfull⟩
  | cons c a ih =>
    by_cases hroom : l.text.length < maxLine
    · obtain ⟨hc, ha⟩ := List.forall_mem_cons.mp hnul
      have hlta : priSet = false → ∀ c ∈ a, c.1 ≠ 60 :=
        fun h c hc => hlt h c (List.mem_cons_of_mem _ hc)
      have hnext : maxLine < (l.append [c]).text.length + (textOf a).length := by
        simpa [Line.append, Nat.add_assoc] using hover
      obtain ⟨front, back, rfl, hfull, hscan⟩ := ih ha hlta hnext
      refine ⟨c :: front, back, rfl, by rwa [← append_cons], ?_⟩
      rw [List.cons_append, scan_cell hroom hc fun h => hlt h c List.mem_cons_self, hscan,
        append_cons]
    · have hfull := Nat.not_lt.mp hroom
      exact ⟨[], c :: a, rfl, by rwa [append_nil], by rw [append_nil]; exact scan_of_full hfull⟩

/-- The number that digits make. -/
def number (n : Nat) (ds : List Cell) : Nat := ds.foldl (fun n c => 10 * n + digitValue c) n

theorem le_number (n : Nat) (ds : List Cell) : n ≤ number n ds := by
  induction ds generalizing n with
  | nil => exact le_rfl
  | cons c ds ih => exact le_trans (by omega) (ih (10 * n + digitValue c))

theorem readPri_digits {n : Nat} {ds : List Cell} (hds : ∀ c ∈ ds, isDigit c = true)
    (hc : isDigit c = false) (hn : n < 2 ^ 31) :
    readPri n (ds ++ c :: q) = if number n ds < 2 ^ 31 then some (number n ds, c :: q) else none := by
  induction ds generalizing n with
  | nil => rw [List.nil_append, readPri, hc, if_neg (by decide), number, List.foldl_nil, if_pos hn]
  | cons d ds ih =>
    obtain ⟨hd, hds⟩ := List.forall_mem_cons.mp hds
    have hnumber : number n (d :: ds) = number (10 * n + digitValue d) ds := rfl
    rw [List.cons_append, readPri, if_pos hd, hnumber]
    by_cases hfit : 10 * n + digitValue d < 2 ^ 31
    · rw [if_pos hfit, ih hds hfit]
    · have hle := le_number (10 * n + digitValue d) ds
      rw [if_neg hfit, if_neg (by omega)]

theorem readPri_suffix {n v : Nat} {p r : List Cell} (h : readPri n p = some (v, r)) :
    r <:+ p := by
  induction p generalizing n with
  | nil => cases h
  | cons c p ih =>
    rw [readPri] at h
    split at h
    · split at h
      · exact (ih h).trans (List.suffix_cons c p)
      · cases h
    · cases h
      exact List.suffix_rfl

theorem scan_src {priSet' : Bool} {pri' : Nat} {l' : Line} {r : List Cell}
    (h : scan logLevel priSet pri l p = some (.line pri' priSet' l' r)) :
    r <:+ p ∧ ∃ used ⊆ p, l' = l.append used := by
  have hcons {c : Cell} {p used : List Cell} (hused : used ⊆ p) : c :: used ⊆ c :: p :=
    List.cons_subset_cons c hused
  fun_induction scan logLevel priSet pri l p with
  | case1 priSet pri l p hfull =>
    cases h
    exact ⟨List.suffix_rfl, [], List.nil_subset _, (append_nil _).symm⟩
  | case2 priSet pri l hroom => cases h
  | case3 priSet pri l hroom c p hc hread => cases h
  | case4 priSet pri l hroom c p hc v r hread hlevel => cases h
  | case5 priSet pri l hroom c p hc v r hread hlevel ih =>
    obtain ⟨hsuffix, used, hused, hline⟩ := ih h
    have htail := ((List.tail_suffix r).trans (readPri_suffix hread)).trans (List.suffix_cons c p)
    exact ⟨hsuffix.trans htail, used, List.Subset.trans hused htail.subset, hline⟩
  | case6 priSet pri l hroom c p hc hzero =>
    cases h
    exact ⟨List.suffix_cons c _, [], List.nil_subset _, (append_nil _).symm⟩
  | case7 priSet pri l hroom c p hc hzero hadd => cases h
  | case8 priSet pri l hroom c p hc hzero l₁ hadd ih =>
    obtain ⟨hsuffix, used, hused, hline⟩ := ih h
    have hl : l₁ = l.append [c] := by
      rw [Line.add] at hadd
      split at hadd
      · cases hadd
        simp [Line.append]
      · cases hadd
    refine ⟨hsuffix.trans (List.suffix_cons c p), c :: used, hcons hused, ?_⟩
    rw [hline, hl, append_cons]

theorem logMessage_eq_some {stack : Block 1025} {logpri : Option Nat} {rec : Record}
    (h : logMessage pri l stack logpri = some rec) :
    rec.pri = pri ∧ rec.src = l.src ∧ rec.logpri = if pri = 0 then logpri else some pri := by
  unfold logMessage at h
  dsimp only at h
  split at h
  · cases h
    exact ⟨rfl, rfl, rfl⟩
  · cases h

variable {stack : Nat → Block 1025} {logpri : Option Nat}

theorem serve_short (h : p.length < 2) : serve logLevel stack priSet logpri p = some [] := by
  rw [serve, if_pos h]

theorem serve_none (h : 2 ≤ p.length)
    (hscan : scan logLevel priSet logUserNotice .empty p = none) :
    serve logLevel stack priSet logpri p = none := by
  rw [serve, if_neg (Nat.not_lt_of_le h)]
  split
  · rfl
  · rename_i heq
    cases heq.symm.trans hscan
  · rename_i heq
    cases heq.symm.trans hscan

theorem serve_returned (h : 2 ≤ p.length)
    (hscan : scan logLevel priSet logUserNotice .empty p = some .returned) :
    serve logLevel stack priSet logpri p = some [] := by
  rw [serve, if_neg (Nat.not_lt_of_le h)]
  split
  · rename_i heq
    cases heq.symm.trans hscan
  · rfl
  · rename_i heq
    cases heq.symm.trans hscan

theorem serve_line {priSet' : Bool} {r : List Cell} (h : 2 ≤ p.length)
    (hscan : scan logLevel priSet logUserNotice .empty p = some (.line pri priSet' l r)) :
    serve logLevel stack priSet logpri p =
      if maxLine < l.text.length then none
      else if l.text = [] then serve logLevel stack priSet' logpri r.tail
      else
        match logMessage pri l (stack p.length) logpri with
        | none => none
        | some rec => (serve logLevel stack priSet' rec.logpri r.tail).map (rec :: ·) := by
  rw [serve, if_neg (Nat.not_lt_of_le h)]
  split
  · rename_i heq
    cases heq.symm.trans hscan
  · rename_i heq
    cases heq.symm.trans hscan
  · rename_i heq
    cases heq.symm.trans hscan
    rfl

/-- Only what is still to be read is logged. -/
theorem serve_src {log : List Record} (h : serve logLevel stack priSet logpri p = some log) :
    ∀ rec ∈ log, rec.src ⊆ p := by
  induction hn : p.length using Nat.strong_induction_on generalizing priSet logpri p log with
  | _ n ih =>
    by_cases hshort : p.length < 2
    · rw [serve_short hshort] at h
      cases h
      exact nofun
    have hlong := Nat.not_lt.mp hshort
    cases hscan : scan logLevel priSet logUserNotice .empty p with
    | none =>
      rw [serve_none hlong hscan] at h
      cases h
    | some res =>
      cases res with
      | returned =>
        rw [serve_returned hlong hscan] at h
        cases h
        exact nofun
      | line pri priSet' l r =>
        obtain ⟨hsuffix, used, hused, rfl⟩ := scan_src hscan
        have htail : r.tail <:+ p := (List.tail_suffix r).trans hsuffix
        have hshorter : r.tail.length < n := by
          have hlen := (scan_length hscan).2 (by decide)
          rw [List.length_tail]
          omega
        rw [serve_line hlong hscan] at h
        split at h
        · cases h
        split at h
        · exact fun rec hrec => List.Subset.trans (ih _ hshorter h rfl rec hrec) htail.subset
        split at h
        · cases h
        · rename_i rec hrec
          obtain ⟨more, hmore, rfl⟩ := Option.map_eq_some_iff.mp h
          refine List.forall_mem_cons.mpr ⟨?_, fun other hother => ?_⟩
          · rw [(logMessage_eq_some hrec).2.1]
            exact hused
          · exact List.Subset.trans (ih _ hshorter hmore rfl other hother) htail.subset

end SyslogScan
