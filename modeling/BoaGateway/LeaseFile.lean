import BoaGateway.DuidText
import BoaGateway.LeaseMerge
import BoaGateway.Tokens

/-!
# The lease file

`rtk_get_dhcpv6_lease_info` of `subr_dhcpv6.c` reads the file of the DHCPv6 server line by line. A
block of the file gives a client, an address, a binding state and the end of the lease; the line
with the end completes the record.
-/

namespace LeaseFile

open ByteBlocks Texts TextFiles MibValue Netmask DuidText Tokens LeaseMerge

def blanks : Bytes := [32, 9]

def semicolon : Bytes := [59]

def strtoll (s : Bytes) : Int :=
  let (neg, n) := readNumber 10 (cstr s)
  if neg then max (-(n : Int)) (-(2 ^ 63)) else min (n : Int) (2 ^ 63 - 1)

/-- The variables of the loop over the lines. -/
structure Scan where
  iaaddr : Bytes
  duid : Block 80
  active : Nat
  leases : List Lease

/-- What is left when the second word of a line has been skipped. -/
def skipWord (s : Bytes) : Bytes :=
  match strtok blanks s with
  | none => []
  | some (_, rest) => rest

/-- One line. A text that is missing, and one too long for its buffer, is a fault. -/
def leaseLine (long : Long) (now : Int) (line : Bytes) (s : Scan) : Option Scan :=
  match strtok blanks (cstr line) with
  | none => some s
  | some (str, rest) =>
    if str = ascii "iaaddr" then
      (strtok blanks rest).map fun tok => { s with iaaddr := tok.1.take 45 }
    else if str = ascii "ia-na" then
      (strtok blanks rest).bind fun tok =>
        (unquotifyAndToHex long tok.1 s.duid).map fun duid => { s with duid := duid }
    else if str = ascii "binding" then
      (strtok semicolon (skipWord rest)).map fun tok =>
        if tok.1 = ascii "active" then { s with active := 1 }
        else if tok.1 = ascii "static" then { s with active := 2 }
        else s
    else if str = ascii "ends" then
      let epoch :=
        match strtok semicolon (skipWord rest) with
        | none => strtoll (ascii "4294967295") - now
        | some tok => strtoll tok.1 - now
      let new := ⟨s.iaaddr, (cstr s.duid.1).take 79, s.active, epoch⟩
      some { s with leases := mergeLease new s.leases, active := 0 }
    else some s

def leaseLoop (long : Long) (now : Int) (max : Nat) : List Bytes → Scan → Option Scan
  | [], s => some s
  | line :: lines, s =>
    if s.leases.length < max then
      (leaseLine long now line s).bind (leaseLoop long now max lines)
    else some s

/-- What `fgets` gives before the end of the file is met. -/
def wholeLines (file : Bytes) : List Bytes :=
  (fgetsLines 255 [] file).filter fun l =>
    decide (l.getLast? = some newline) || decide (l.length = 255)

/-- The loop over the static leases; `neigh` is what `popen` and `fgets` give for an address. -/
def checkStatic (neigh : Bytes → Option (Option Bytes)) : Bytes → List Lease → Bool × List Lease
  | _, [] => (true, [])
  | cmdResult, e :: es =>
    if e.active = 2 then
      match neigh e.iaaddr with
      | none => (false, e :: es)
      | some line =>
        let cmdResult := line.getD cmdResult
        let e := if contains cmdResult (ascii "FAILED") then { e with active := 0 } else e
        let (ok, es) := checkStatic neigh cmdResult es
        (ok, e :: es)
    else
      let (ok, es) := checkStatic neigh cmdResult es
      (ok, e :: es)

/-- The return value, the array and `*real_client_num`, where it is set. -/
structure Result where
  ret : Int
  leases : List Lease
  realClientNum : Option Nat
  deriving DecidableEq

/-- `rtk_get_dhcpv6_lease_info`, for a file that may be missing. -/
def rtkGetDhcpv6LeaseInfo (long : Long) (now : Int) (neigh : Bytes → Option (Option Bytes))
    (max : Nat) (file : Option Bytes) : Option Result :=
  match file with
  | none => some ⟨-1, [], none⟩
  | some file =>
    (leaseLoop long now max (wholeLines file) ⟨[], Block.zeros 80, 0, []⟩).map fun s =>
      match checkStatic neigh [] s.leases with
      | (true, leases) => ⟨0, leases, some leases.length⟩
      | (false, leases) => ⟨1, leases, none⟩

/-- The end of a lease: `never`, or a text behind another word, with what follows it. -/
inductive Ends where
  | never
  | at (word text tail : Bytes)

/-- A block, with the other lines in front of, between and behind the four that count. -/
structure LeaseBlock where
  duid : Bytes
  iaaddr : Bytes
  state : Bytes
  ends : Ends
  others : Fin 5 → List Bytes

def Ends.text : Ends → Bytes
  | .never => ascii "never;"
  | .at word text tail => word ++ 32 :: (text ++ 59 :: tail)

def LeaseBlock.lines (b : LeaseBlock) : List Bytes :=
  b.others 0 ++ (ascii "ia-na " ++ b.duid ++ ascii " \x7b\n") ::
    (b.others 1 ++ (ascii "  iaaddr " ++ b.iaaddr ++ ascii " \x7b\n") ::
      (b.others 2 ++ (ascii "    binding state " ++ b.state ++ ascii ";\n") ::
        (b.others 3 ++ (ascii "    ends " ++ b.ends.text ++ ascii "\n") :: b.others 4)))

def fileText (blocks : List LeaseBlock) : Bytes := (blocks.flatMap LeaseBlock.lines).flatten

/-- A text without zero bytes and line ends, without certain other bytes, and not too long. -/
structure Word (n : Nat) (without s : Bytes) : Prop where
  nonempty : s ≠ []
  plain : ∀ c ∈ s, c ≠ 0 ∧ c ≠ newline ∧ c ∉ without
  length : s.length ≤ n

def keywords : List Bytes := [ascii "iaaddr", ascii "ia-na", ascii "binding", ascii "ends"]

/-- A line of the file that fits in the buffer. -/
def IsLine (l : Bytes) : Prop := ∃ t, l = t ++ [newline] ∧ newline ∉ t ∧ t.length < 255

/-- The parts of a block are texts, and the other lines begin with other words. -/
structure LeaseBlock.WellFormed (b : LeaseBlock) : Prop where
  duid : Word 240 [] b.duid
  iaaddr : Word 45 blanks b.iaaddr
  state : Word 200 semicolon b.state
  ends : ∀ word text tail, b.ends = .at word text tail →
    Word 16 blanks word ∧ Word 100 semicolon text ∧ (∀ c ∈ tail, c ≠ 0 ∧ c ≠ newline) ∧
      tail.length ≤ 100
  others : ∀ i, ∀ l ∈ b.others i, IsLine l ∧
    ∀ tok, strtok blanks (cstr l) = some tok → tok.1 ∉ keywords

/-- The variable `active` behind a line with the state. -/
def stateValue (state : Bytes) : Nat :=
  if state = ascii "active" then 1 else if state = ascii "static" then 2 else 0

/-- The record of a block, with a text for the client. -/
def LeaseBlock.withClient (long : Long) (now : Int) (b : LeaseBlock) (text : Bytes) : Lease where
  iaaddr := b.iaaddr
  duid := colonHex ((allBytes long text).drop 4)
  active := stateValue b.state
  epoch :=
    match b.ends with
    | .never => strtoll (ascii "4294967295") - now
    | .at _ text _ => strtoll text - now

def LeaseBlock.record (long : Long) (now : Int) (b : LeaseBlock) : Lease :=
  b.withClient long now b.duid

/-- The first word of the line behind the keyword: it ends where the client's text holds a
blank. -/
def LeaseBlock.token (b : LeaseBlock) : Bytes :=
  ((b.duid ++ ascii " \x7b\n").dropWhile (· ∈ blanks)).takeWhile (· ∉ blanks)

def LeaseBlock.asRead (long : Long) (now : Int) (b : LeaseBlock) : Lease :=
  b.withClient long now b.token

variable {long : Long} {now : Int} {max : Nat} {s : Scan} {b : LeaseBlock}

theorem cstr_line {l : Bytes} (h : ∀ c ∈ l, c ≠ 0) : cstr l = l :=
  cstr_eq_self fun hmem => h 0 hmem rfl

theorem fgetsLines_join {lines : List Bytes} (h : ∀ l ∈ lines, IsLine l) :
    fgetsLines 255 [] lines.flatten = lines := by
  induction lines with
  | nil => rfl
  | cons l lines ih =>
    obtain ⟨⟨t, rfl, ht, hlen⟩, hlines⟩ := List.forall_mem_cons.mp h
    rw [List.flatten_cons, List.append_assoc, List.singleton_append, fgetsLines_line ht [] hlen,
      ih hlines, List.nil_append]

theorem wholeLines_join {lines : List Bytes} (h : ∀ l ∈ lines, IsLine l) :
    wholeLines lines.flatten = lines := by
  rw [wholeLines, fgetsLines_join h]
  refine List.filter_eq_self.mpr fun l hl => ?_
  obtain ⟨t, rfl, -⟩ := h l hl
  rw [List.getLast?_concat]
  rfl

/-- A keyword and what follows its blank. -/
theorem strtok_key {lead key : Bytes} (hlead : ∀ c ∈ lead, c ∈ blanks) (hne : key ≠ [])
    (hkey : ∀ c ∈ key, c ∉ blanks) (rest : Bytes) :
    strtok blanks (lead ++ (key ++ 32 :: rest)) = some (key, rest) :=
  strtok_word hlead hne hkey (by decide) rest

theorem token_spec (b : LeaseBlock) :
    ∃ rest, strtok blanks (b.duid ++ ascii " \x7b\n") = some (b.token, rest) := by
  have hne : (b.duid ++ ascii " \x7b\n").dropWhile (· ∈ blanks) ≠ [] := by
    intro hnil
    have hbrace : (123 : UInt8) ∈ b.duid ++ ascii " \x7b\n" :=
      List.mem_append_right _ (by decide)
    exact absurd (of_decide_eq_true (List.dropWhile_eq_nil_iff.mp hnil 123 hbrace)) (by decide)
  exact ⟨_, if_neg hne⟩

theorem Word.no_nul {n : Nat} {without w : Bytes} (h : Word n without w) : ∀ c ∈ w, c ≠ 0 :=
  fun c hc => (h.plain c hc).1

theorem Word.avoids {n : Nat} {without w : Bytes} (h : Word n without w) :
    ∀ c ∈ w, c ∉ without :=
  fun c hc => (h.plain c hc).2.2

/-- The keywords are words. -/
theorem keyword_word {key : Bytes} (h : key ∈ keywords) : key ≠ [] ∧ ∀ c ∈ key, c ∉ blanks := by
  have hall : ∀ key ∈ keywords, key ≠ [] ∧ (key.all fun c => decide (c ∉ blanks)) = true := by
    decide
  exact ⟨(hall key h).1, forall_of_all (hall key h).2⟩

theorem strtok_keyword {lead key : Bytes} (hlead : ∀ c ∈ lead, c ∈ blanks) (h : key ∈ keywords)
    (rest : Bytes) : strtok blanks (lead ++ (key ++ 32 :: rest)) = some (key, rest) :=
  strtok_key hlead (keyword_word h).1 (keyword_word h).2 rest

theorem leaseLine_iaNa (h : b.WellFormed) :
    leaseLine long now (ascii "ia-na " ++ b.duid ++ ascii " \x7b\n") s =
      (unquotifyAndToHex long b.token s.duid).map fun duid => { s with duid := duid } := by
  obtain ⟨rest, hrest⟩ := token_spec b
  have hnul : ∀ c ∈ ascii "ia-na " ++ b.duid ++ ascii " \x7b\n", c ≠ 0 := by
    refine List.forall_mem_append.mpr
      ⟨List.forall_mem_append.mpr ⟨forall_of_all rfl, h.duid.no_nul⟩, ?_⟩
    exact forall_of_all rfl
  have hkey : strtok blanks (ascii "ia-na " ++ b.duid ++ ascii " \x7b\n") =
      some (ascii "ia-na", b.duid ++ ascii " \x7b\n") := by
    have hlead : ∀ c ∈ ([] : Bytes), c ∈ blanks := nofun
    have hmem : ascii "ia-na" ∈ keywords := by decide
    rw [List.append_assoc]
    exact strtok_keyword hlead hmem _
  rw [leaseLine, cstr_line hnul, hkey]
  dsimp only
  rw [if_neg (by decide), if_pos rfl, hrest]
  rfl

theorem leaseLine_iaaddr (h : b.WellFormed) :
    leaseLine long now (ascii "  iaaddr " ++ b.iaaddr ++ ascii " \x7b\n") s =
      some { s with iaaddr := b.iaaddr } := by
  have hnul : ∀ c ∈ ascii "  iaaddr " ++ b.iaaddr ++ ascii " \x7b\n", c ≠ 0 := by
    refine List.forall_mem_append.mpr
      ⟨List.forall_mem_append.mpr ⟨forall_of_all rfl, h.iaaddr.no_nul⟩, ?_⟩
    exact forall_of_all rfl
  have hkey : strtok blanks (ascii "  iaaddr " ++ b.iaaddr ++ ascii " \x7b\n") =
      some (ascii "iaaddr", b.iaaddr ++ ascii " \x7b\n") := by
    have hlead : ∀ c ∈ ([32, 32] : Bytes), c ∈ blanks := forall_of_all rfl
    have hmem : ascii "iaaddr" ∈ keywords := by decide
    rw [List.append_assoc]
    exact strtok_keyword hlead hmem _
  have hword : strtok blanks (b.iaaddr ++ ascii " \x7b\n") = some (b.iaaddr, ascii "\x7b\n") :=
    strtok_front h.iaaddr.nonempty h.iaaddr.avoids (by decide : (32 : UInt8) ∈ blanks) _
  rw [leaseLine, cstr_line hnul, hkey]
  dsimp only
  rw [if_pos rfl, hword, Option.map_some, List.take_of_length_le h.iaaddr.length]

theorem leaseLine_binding (h : b.WellFormed) (hs : s.active = 0) :
    leaseLine long now (ascii "    binding state " ++ b.state ++ ascii ";\n") s =
      some { s with active := stateValue b.state } := by
  have hnul : ∀ c ∈ ascii "    binding state " ++ b.state ++ ascii ";\n", c ≠ 0 := by
    refine List.forall_mem_append.mpr
      ⟨List.forall_mem_append.mpr ⟨forall_of_all rfl, h.state.no_nul⟩, ?_⟩
    exact forall_of_all rfl
  have hkey : strtok blanks (ascii "    binding state " ++ b.state ++ ascii ";\n") =
      some (ascii "binding", ascii "state " ++ (b.state ++ ascii ";\n")) := by
    have hlead : ∀ c ∈ ([32, 32, 32, 32] : Bytes), c ∈ blanks := forall_of_all rfl
    have hmem : ascii "binding" ∈ keywords := by decide
    rw [List.append_assoc]
    exact strtok_keyword hlead hmem _
  have hskip : skipWord (ascii "state " ++ (b.state ++ ascii ";\n")) = b.state ++ ascii ";\n" := by
    have hword : strtok blanks (ascii "state " ++ (b.state ++ ascii ";\n")) =
        some (ascii "state", b.state ++ ascii ";\n") :=
      strtok_front (w := ascii "state") (by decide) (forall_of_all rfl)
        (by decide : (32 : UInt8) ∈ blanks) _
    rw [skipWord, hword]
  have hstate : strtok semicolon (b.state ++ ascii ";\n") = some (b.state, ascii "\n") :=
    strtok_front h.state.nonempty h.state.avoids (by decide : (59 : UInt8) ∈ semicolon) _
  rw [leaseLine, cstr_line hnul, hkey]
  dsimp only
  rw [if_neg (by decide), if_neg (by decide), if_pos rfl, hskip, hstate, Option.map_some]
  rw [stateValue]
  by_cases hactive : b.state = ascii "active"
  · rw [if_pos hactive, if_pos hactive]
  · rw [if_neg hactive, if_neg hactive]
    by_cases hstatic : b.state = ascii "static"
    · rw [if_pos hstatic, if_pos hstatic]
    · rw [if_neg hstatic, if_neg hstatic, ← hs]

theorem leaseLine_ends (h : b.WellFormed) :
    leaseLine long now (ascii "    ends " ++ b.ends.text ++ ascii "\n") s =
      some
        { s with
          leases := mergeLease
            ⟨s.iaaddr, (cstr s.duid.1).take 79, s.active, (b.record long now).epoch⟩ s.leases
          active := 0 } := by
  have hnul : ∀ c ∈ ascii "    ends " ++ b.ends.text ++ ascii "\n", c ≠ 0 := by
    refine List.forall_mem_append.mpr
      ⟨List.forall_mem_append.mpr ⟨forall_of_all rfl, ?_⟩, forall_of_all rfl⟩
    cases hends : b.ends with
    | never => exact forall_of_all rfl
    | «at» word text tail =>
      obtain ⟨hword, htext, htail, -⟩ := h.ends word text tail hends
      refine List.forall_mem_append.mpr ⟨hword.no_nul, List.forall_mem_cons.mpr ⟨by decide, ?_⟩⟩
      refine List.forall_mem_append.mpr ⟨htext.no_nul, List.forall_mem_cons.mpr ⟨by decide, ?_⟩⟩
      exact fun c hc => (htail c hc).1
  have hkey : strtok blanks (ascii "    ends " ++ b.ends.text ++ ascii "\n") =
      some (ascii "ends", b.ends.text ++ ascii "\n") := by
    have hlead : ∀ c ∈ ([32, 32, 32, 32] : Bytes), c ∈ blanks := forall_of_all rfl
    have hmem : ascii "ends" ∈ keywords := by decide
    rw [List.append_assoc]
    exact strtok_keyword hlead hmem _
  have hepoch : (match strtok semicolon (skipWord (b.ends.text ++ ascii "\n")) with
      | none => strtoll (ascii "4294967295") - now
      | some tok => strtoll tok.1 - now) = (b.record long now).epoch := by
    cases hends : b.ends with
    | never =>
      have hskip : strtok semicolon (skipWord (Ends.never.text ++ ascii "\n")) = none := by decide
      rw [hskip]
      simp only [LeaseBlock.record, LeaseBlock.withClient, hends]
    | «at» word text tail =>
      obtain ⟨hword, htext, -, -⟩ := h.ends word text tail hends
      have hskip : skipWord ((Ends.at word text tail).text ++ ascii "\n") =
          text ++ 59 :: (tail ++ ascii "\n") := by
        have hfirst : strtok blanks (word ++ 32 :: (text ++ 59 :: (tail ++ ascii "\n"))) =
            some (word, text ++ 59 :: (tail ++ ascii "\n")) :=
          strtok_front hword.nonempty hword.avoids (by decide) _
        have happend : (Ends.at word text tail).text ++ ascii "\n" =
            word ++ 32 :: (text ++ 59 :: (tail ++ ascii "\n")) := by
          simp [Ends.text]
        rw [happend, skipWord, hfirst]
      rw [hskip, strtok_front htext.nonempty htext.avoids (by decide)]
      simp only [LeaseBlock.record, LeaseBlock.withClient, hends]
  rw [leaseLine, cstr_line hnul, hkey]
  dsimp only
  rw [if_neg (by decide), if_neg (by decide), if_neg (by decide), if_pos rfl, ← hepoch]

theorem leaseLoop_append (xs ys : List Bytes) (s : Scan) :
    leaseLoop long now max (xs ++ ys) s =
      (leaseLoop long now max xs s).bind (leaseLoop long now max ys) := by
  induction xs generalizing s with
  | nil => rfl
  | cons x xs ih =>
    rw [List.cons_append, leaseLoop, leaseLoop]
    by_cases hroom : s.leases.length < max
    · rw [if_pos hroom, if_pos hroom]
      cases leaseLine long now x s with
      | none => rfl
      | some s' => exact ih s'
    · rw [if_neg hroom, if_neg hroom, Option.bind_some]
      cases ys with
      | nil => rfl
      | cons y ys => rw [leaseLoop, if_neg hroom]

theorem leaseLoop_full (hfull : ¬s.leases.length < max) (lines : List Bytes) :
    leaseLoop long now max lines s = some s := by
  cases lines with
  | nil => rfl
  | cons l lines => rw [leaseLoop, if_neg hfull]

theorem leaseLoop_line {l : Bytes} {s' : Scan} (hroom : s.leases.length < max)
    (h : leaseLine long now l s = some s') (lines : List Bytes) :
    leaseLoop long now max (l :: lines) s = leaseLoop long now max lines s' := by
  rw [leaseLoop, if_pos hroom, h, Option.bind_some]

/-- A line that begins with another word changes nothing. -/
theorem leaseLine_other {l : Bytes}
    (h : ∀ tok, strtok blanks (cstr l) = some tok → tok.1 ∉ keywords) :
    leaseLine long now l s = some s := by
  rw [leaseLine]
  cases htok : strtok blanks (cstr l) with
  | none => rfl
  | some tok =>
    have hne := h tok htok
    simp only [keywords, List.mem_cons, List.not_mem_nil, not_or] at hne
    dsimp only
    rw [if_neg hne.1, if_neg hne.2.1, if_neg hne.2.2.1, if_neg hne.2.2.2.1]

theorem leaseLoop_others {lines : List Bytes}
    (h : ∀ l ∈ lines, ∀ tok, strtok blanks (cstr l) = some tok → tok.1 ∉ keywords) :
    leaseLoop long now max lines s = some s := by
  induction lines with
  | nil => rfl
  | cons l lines ih =>
    obtain ⟨hl, hlines⟩ := List.forall_mem_cons.mp h
    rw [leaseLoop, leaseLine_other hl, Option.bind_some, ih hlines]
    exact ite_self _

theorem LeaseBlock.WellFormed.skips (h : b.WellFormed) (i : Fin 5) (lines : List Bytes) (s : Scan) :
    leaseLoop long now max (b.others i ++ lines) s = leaseLoop long now max lines s := by
  rw [leaseLoop_append, leaseLoop_others fun l hl => (h.others i l hl).2, Option.bind_some]

/-- A block, while there is room. -/
theorem leaseLoop_block (h : b.WellFormed) (hs : s.active = 0) (hroom : s.leases.length < max) :
    leaseLoop long now max b.lines s =
      (unquotifyAndToHex long b.token s.duid).map fun duid =>
        ⟨b.iaaddr, duid, 0, mergeLease
          ⟨b.iaaddr, (cstr duid.1).take 79, stateValue b.state, (b.record long now).epoch⟩
          s.leases⟩ := by
  rw [LeaseBlock.lines, h.skips, leaseLoop, if_pos hroom, leaseLine_iaNa h]
  cases unquotifyAndToHex long b.token s.duid with
  | none => rfl
  | some duid =>
    rw [Option.map_some, Option.bind_some, Option.map_some, h.skips,
      leaseLoop_line (by exact hroom) (leaseLine_iaaddr h), h.skips,
      leaseLoop_line (by exact hroom) (leaseLine_binding h (by exact hs)), h.skips,
      leaseLoop_line (by exact hroom) (leaseLine_ends h)]
    exact leaseLoop_others fun l hl => (h.others 4 l hl).2

/-- The text that is read for a client fits in the entry. -/
theorem asRead_duid {s : Bytes} {duid : Block 80} (hlong : (allBytes long s).length ≤ 26)
    (h : cstr duid.1 = colonHex ((allBytes long s).drop 4)) :
    (cstr duid.1).take 79 = colonHex ((allBytes long s).drop 4) := by
  rw [h]
  refine List.take_of_length_le ?_
  by_cases hnil : (allBytes long s).drop 4 = []
  · rw [hnil]
    exact Nat.zero_le _
  · rw [colonHex_length hnil, List.length_drop]
    omega

/-- A line of three parts. -/
theorem isLine_parts {key w tail : Bytes} (hkey : newline ∉ key) (hw : newline ∉ w)
    (htail : newline ∉ tail) (hlen : key.length + w.length + tail.length < 255) :
    IsLine (key ++ w ++ (tail ++ [newline])) := by
  refine ⟨key ++ w ++ tail, by rw [List.append_assoc (key ++ w)], ?_, ?_⟩
  · simp only [List.mem_append, not_or]
    exact ⟨⟨hkey, hw⟩, htail⟩
  · rw [List.length_append, List.length_append]
    exact hlen

theorem Word.no_newline {n : Nat} {without w : Bytes} (h : Word n without w) : newline ∉ w :=
  fun hmem => (h.plain _ hmem).2.1 rfl

theorem Ends.text_line (h : b.WellFormed) :
    newline ∉ b.ends.text ∧ b.ends.text.length ≤ 218 := by
  cases hends : b.ends with
  | never => decide
  | «at» word text tail =>
    obtain ⟨hword, htext, htail, hlen⟩ := h.ends word text tail hends
    constructor
    · simp only [Ends.text, List.mem_append, List.mem_cons, not_or]
      exact ⟨hword.no_newline, by decide, htext.no_newline, by decide,
        fun hmem => (htail _ hmem).2 rfl⟩
    · have hwordLen := hword.length
      have htextLen := htext.length
      simp only [Ends.text, List.length_append, List.length_cons]
      omega

/-- The lines of a block fit in the buffer. -/
theorem lines_isLine (h : b.WellFormed) : ∀ l ∈ b.lines, IsLine l := by
  have hothers (i : Fin 5) : ∀ l ∈ b.others i, IsLine l := fun l hl => (h.others i l hl).1
  have hduid := h.duid.length
  have hiaaddr := h.iaaddr.length
  have hstate := h.state.length
  obtain ⟨hends, hendsLen⟩ := Ends.text_line h
  have hsizes : (ascii "ia-na ").length = 6 ∧ (ascii "  iaaddr ").length = 9 ∧
      (ascii "    binding state ").length = 18 ∧ (ascii "    ends ").length = 9 ∧
      (ascii " \x7b").length = 2 ∧ (ascii ";").length = 1 := by decide
  obtain ⟨h₁, h₂, h₃, h₄, h₅, h₆⟩ := hsizes
  have hiaNaLine : IsLine (ascii "ia-na " ++ b.duid ++ (ascii " \x7b" ++ [newline])) :=
    isLine_parts (by decide) h.duid.no_newline (by decide) (by omega)
  have hiaaddrLine : IsLine (ascii "  iaaddr " ++ b.iaaddr ++ (ascii " \x7b" ++ [newline])) :=
    isLine_parts (by decide) h.iaaddr.no_newline (by decide) (by omega)
  have hbindingLine : IsLine (ascii "    binding state " ++ b.state ++ (ascii ";" ++ [newline])) :=
    isLine_parts (by decide) h.state.no_newline (by decide) (by omega)
  have hendsLine : IsLine (ascii "    ends " ++ b.ends.text ++ ([] ++ [newline])) :=
    isLine_parts (by decide) hends List.not_mem_nil (by rw [List.length_nil]; omega)
  rw [LeaseBlock.lines]
  simp only [List.forall_mem_append, List.forall_mem_cons]
  exact ⟨hothers 0, hiaNaLine, hothers 1, hiaaddrLine, hothers 2, hbindingLine, hothers 3,
    hendsLine, hothers 4⟩

end LeaseFile
