import BoaGateway.MibText

/-!
# Groups of hexadecimal digits

`to_hex_string_int` goes through a text with three positions and copies each group of digits to
the next eight bytes of a buffer. The limit is looked at after a group is copied.
-/

namespace HexGroups

open ByteBlocks MibValue Texts MibText

/-- `is_delimiter`. -/
def isDelimiter (ch : UInt8) : Bool := ch == 44 || ch == 32 || ch == 0

/-- `eat_delimiter`. A byte that is not there cannot be read. -/
def eatDelimiter (string : Bytes) (pos strlen : Nat) : Option Nat :=
  if pos ≤ strlen then
    string[pos]?.bind fun ch =>
      if isDelimiter ch then (eatDelimiter string (pos + 1) strlen).map (· + 1) else some 0
  else some 0
termination_by strlen + 1 - pos

/-- `copy_hex_str_as_one_int`. A byte outside the buffer cannot be written. -/
def copyHexStrAsOneInt {m : Nat} (tostr : Block m) (topos : Nat) (fromstr : Bytes)
    (frompos cpLen : Nat) : Option (Block m) :=
  if 8 < cpLen ∨ fromstr.length < frompos + cpLen then none
  else
    (if cpLen < 8 then tostr.write topos (List.replicate (8 - cpLen) 48)
      else some tostr).bind fun tostr =>
        tostr.write (topos + (8 - cpLen)) ((fromstr.drop frompos).take cpLen)

/-- The local variables of the loop, with the buffer. -/
structure Copy (m : Nat) where
  pos : Nat
  hexCount : Nat
  fromPos : Nat
  toPos : Nat
  tostr : Block m

/-- One turn of the loop. -/
def copyTurn {m : Nat} (string : Bytes) (origLen : Nat) (c : Copy m) : Option (Copy m) :=
  match eatDelimiter string c.pos origLen with
  | none => none
  | some 0 =>
    let c := { c with pos := c.pos + 1, hexCount := c.hexCount + 1 }
    if c.hexCount = 8 then
      (copyHexStrAsOneInt c.tostr c.toPos string c.fromPos 8).map fun tostr =>
        { c with tostr, toPos := c.toPos + 8, fromPos := c.fromPos + 8, hexCount := 0 }
    else some c
  | some (count + 1) =>
    (if 0 < c.pos - c.fromPos then
      (copyHexStrAsOneInt c.tostr c.toPos string c.fromPos (c.pos - c.fromPos)).map fun tostr =>
        { c with tostr, toPos := c.toPos + 8, hexCount := 0 }
    else some c).map fun c =>
      { c with pos := c.pos + (count + 1), fromPos := c.pos + (count + 1) }

theorem copyTurn_pos {m : Nat} {string : Bytes} {origLen : Nat} {c c' : Copy m}
    (h : copyTurn string origLen c = some c') : c.pos < c'.pos := by
  rw [copyTurn] at h
  split at h
  · cases h
  · dsimp only at h
    split at h
    · obtain ⟨tostr, -, rfl⟩ := Option.map_eq_some_iff.mp h
      exact Nat.lt_succ_self _
    · cases h
      exact Nat.lt_succ_self _
  · rename_i count _
    obtain ⟨d, hd, rfl⟩ := Option.map_eq_some_iff.mp h
    have hpos : d.pos = c.pos := by
      split at hd
      · obtain ⟨tostr, -, rfl⟩ := Option.map_eq_some_iff.mp hd
        rfl
      · cases hd
        rfl
    change c.pos < d.pos + (count + 1)
    omega

/-- The loop of `to_hex_string_int`. -/
def copyLoop {m : Nat} (string : Bytes) (origLen maxstrlen : Nat) (c : Copy m) :
    Option (Block m) :=
  if c.pos ≤ origLen then
    match _h : copyTurn string origLen c with
    | none => none
    | some c' =>
      if maxstrlen < c'.toPos then some c'.tostr else copyLoop string origLen maxstrlen c'
  else some c.tostr
termination_by origLen + 1 - c.pos
decreasing_by
  have hpos := copyTurn_pos _h
  omega

/-- `to_hex_string_int`. The size of the buffer is an `int`. -/
def toHexStringIntBuffer (string : Bytes) (maxstrlen : Nat) : Option (Block (maxstrlen + 1)) :=
  if 2 ^ 31 ≤ maxstrlen + 1 then none
  else
    let origLen := strlen string
    (copyLoop (cstr string ++ [0]) origLen maxstrlen
      ⟨0, 0, 0, 0, Block.zeros (maxstrlen + 1)⟩).bind fun tostr => tostr.write maxstrlen [0]

/-- A list cut into pieces from the left. -/
def pieces {α : Type} (n : Nat) (l : List α) : List (List α) :=
  if _h : l = [] ∨ n = 0 then [] else l.take n :: pieces n (l.drop n)
termination_by l.length
decreasing_by
  rw [not_or] at _h
  have hpos := List.length_pos_iff.mpr _h.1
  rw [List.length_drop]
  omega

/-- The groups of a text: runs without a delimiter, cut into pieces of eight. -/
def groupsOf (s : Bytes) : List Bytes := (s.splitOnP isDelimiter).flatMap (pieces 8)

/-- A group with zeros in front. -/
def padded (g : Bytes) : Bytes := List.replicate (8 - g.length) 48 ++ g

theorem pieces_nil (n : Nat) : pieces n ([] : Bytes) = [] := by
  rw [pieces, dif_pos (.inl rfl)]

theorem pieces_append {n : Nat} (hn : 0 < n) {g : Bytes} (hg : g.length = n) (t : Bytes) :
    pieces n (g ++ t) = g :: pieces n t := by
  have hne : ¬(g ++ t = [] ∨ n = 0) := by
    rintro (hnil | hzero)
    · have hlen := congrArg List.length hnil
      rw [List.length_append, List.length_nil] at hlen
      omega
    · omega
  rw [pieces, dif_neg hne, List.take_left' hg, List.drop_left' hg]

theorem pieces_short {n : Nat} {g : Bytes} (hne : g ≠ []) (hg : g.length ≤ n) :
    pieces n g = [g] := by
  have hpos := List.length_pos_iff.mpr hne
  rw [pieces, dif_neg (not_or.mpr ⟨hne, by omega⟩), List.take_of_length_le hg,
    List.drop_of_length_le hg, pieces_nil]

theorem splitOnP_run {p : UInt8 → Bool} {g : Bytes} (hg : ∀ c ∈ g, p c = false) (s : Bytes) :
    (g ++ s).splitOnP p = (s.splitOnP p).modifyHead (g ++ ·) := by
  induction g with
  | nil =>
    rw [List.nil_append]
    rw [show (fun r : Bytes => [] ++ r) = id from rfl, List.modifyHead_id]
    rfl
  | cons c g ih =>
    obtain ⟨hc, hg⟩ := List.forall_mem_cons.mp hg
    rw [List.cons_append, List.splitOnP_cons_eq_if_modifyHead, if_neg (by rw [hc]; decide), ih hg,
      List.modifyHead_modifyHead]
    rfl

/-- The groups that are collected character by character are the pieces of the runs. -/
theorem hexIntGroups_eq {group s : Bytes} (hgroup : ∀ c ∈ group, isDelimiter c = false)
    (hlen : group.length < 8) (hs : (0 : UInt8) ∉ s) :
    hexIntGroups group s = groupsOf (group ++ s) := by
  induction s generalizing group with
  | nil =>
    rw [hexIntGroups, groupsOf, List.append_nil, List.splitOnP_eq_singleton hgroup,
      List.flatMap_singleton]
    split
    · rename_i hnil
      rw [hnil, pieces_nil]
    · rename_i hne
      rw [pieces_short hne hlen.le]
  | cons c s ih =>
    rw [List.mem_cons, not_or] at hs
    have hdelim : isDelimiter c = true ↔ c = 44 ∨ c = 32 := by
      rw [isDelimiter, Bool.or_eq_true, Bool.or_eq_true, beq_iff_eq, beq_iff_eq, beq_iff_eq]
      exact or_iff_left (Ne.symm hs.1)
    rw [hexIntGroups]
    by_cases hc : c = 44 ∨ c = 32
    · rw [if_pos hc, ih (fun _ h => absurd h List.not_mem_nil) (by decide) hs.2, groupsOf,
        groupsOf, List.splitOnP_append_cons_of_forall_mem hgroup c (hdelim.mpr hc),
        List.flatMap_cons, List.nil_append]
      split
      · rename_i hnil
        rw [hnil, pieces_nil]
      · rename_i hne
        rw [pieces_short hne hlen.le]
    · have hplain : isDelimiter c = false := Bool.eq_false_of_not_eq_true fun h => hc (hdelim.mp h)
      have hmore : ∀ d ∈ group ++ [c], isDelimiter d = false := by
        intro d hd
        rcases List.mem_append.mp hd with hd | hd
        · exact hgroup d hd
        · rw [List.mem_singleton.mp hd]
          exact hplain
      have happend : group ++ c :: s = group ++ [c] ++ s := List.append_cons group c s
      rw [if_neg hc, happend]
      split
      · rename_i hfull
        obtain ⟨run, rest, hsplit⟩ :=
          List.exists_cons_of_ne_nil (List.splitOnP_ne_nil isDelimiter s)
        rw [ih (fun _ h => absurd h List.not_mem_nil) (by decide) hs.2, groupsOf, groupsOf,
          splitOnP_run hmore, List.nil_append, hsplit, List.modifyHead_cons, List.flatMap_cons,
          List.flatMap_cons, pieces_append (by decide) (by simp [hfull]), List.cons_append]
      · rename_i hfree
        exact ih hmore (by simp; omega) hs.2

theorem eatDelimiter_eq {string : Bytes} {strlen : Nat} (hlen : string.length = strlen + 1)
    (pos : Nat) : eatDelimiter string pos strlen =
      some ((string.drop pos).takeWhile isDelimiter).length := by
  induction hrest : strlen + 1 - pos generalizing pos with
  | zero =>
    rw [eatDelimiter, if_neg (by omega), List.drop_of_length_le (by omega)]
    rfl
  | succ n ih =>
    have hpos : pos < string.length := by omega
    rw [eatDelimiter, if_pos (by omega), List.getElem?_eq_getElem hpos, Option.bind_some,
      List.drop_eq_getElem_cons hpos, List.takeWhile_cons]
    split
    · rw [ih (pos + 1) (by omega)]
      rfl
    · rfl

/-- A group is written with the zeros in front. -/
theorem copy_eq {m : Nat} (tostr : Block m) (topos : Nat) (front : Bytes) {g : Bytes}
    (hg : g.length ≤ 8) (rest : Bytes) :
    copyHexStrAsOneInt tostr topos (front ++ (g ++ rest)) front.length g.length =
      tostr.write topos (padded g) := by
  have hlen : ¬(8 < g.length ∨ (front ++ (g ++ rest)).length < front.length + g.length) := by
    simp only [List.length_append]
    omega
  rw [copyHexStrAsOneInt, if_neg hlen, List.drop_left, List.take_left, padded]
  rcases Nat.lt_or_eq_of_le hg with hshort | hfull
  · have happend := Block.write_append tostr topos (List.replicate (8 - g.length) 48) g
    rw [List.length_replicate] at happend
    rw [if_pos hshort]
    exact happend
  · rw [if_neg (by omega), hfull]
    rfl

/-- One group after the other is written, until the limit is passed. -/
def place {m : Nat} (maxstrlen : Nat) : List Bytes → Nat → Block m → Option (Block m)
  | [], _, tostr => some tostr
  | g :: gs, toPos, tostr =>
    (tostr.write toPos (padded g)).bind fun tostr =>
      if maxstrlen < toPos + 8 then some tostr else place maxstrlen gs (toPos + 8) tostr

theorem hexIntGroups_delimiters {ds : Bytes} (hds : ∀ c ∈ ds, c = 44 ∨ c = 32) (s : Bytes) :
    hexIntGroups [] (ds ++ s) = hexIntGroups [] s := by
  induction ds with
  | nil => rfl
  | cons d ds ih =>
    obtain ⟨hd, hds⟩ := List.forall_mem_cons.mp hds
    rw [List.cons_append, hexIntGroups, if_pos hd, if_pos rfl, List.nil_append, ih hds]

theorem copyLoop_end {m : Nat} {string : Bytes} {origLen maxstrlen : Nat} {c : Copy m}
    (h : origLen < c.pos) : copyLoop string origLen maxstrlen c = some c.tostr := by
  rw [copyLoop, if_neg (by omega)]

theorem copyLoop_turn {m : Nat} {string : Bytes} {origLen maxstrlen : Nat} {c : Copy m}
    (h : c.pos ≤ origLen) : copyLoop string origLen maxstrlen c =
      (copyTurn string origLen c).bind fun c' =>
        if maxstrlen < c'.toPos then some c'.tostr else copyLoop string origLen maxstrlen c' := by
  rw [copyLoop, if_pos h]
  split
  · rename_i hturn
    rw [hturn]
    rfl
  · rename_i c' hturn
    rw [hturn]
    rfl

/-- The delimiters in front of a rest are eaten, and the end of the text with them. -/
theorem eaten_length (rest : Bytes) : ((rest ++ [0]).takeWhile isDelimiter).length =
    (rest.takeWhile isDelimiter).length + if rest.dropWhile isDelimiter = [] then 1 else 0 := by
  induction rest with
  | nil => rfl
  | cons d rest ih =>
    rw [List.cons_append, List.takeWhile_cons, List.takeWhile_cons, List.dropWhile_cons]
    split
    · rw [List.length_cons, List.length_cons, ih]
      omega
    · rfl

/-- The rest of the text begins with a delimiter or ends. -/
def Pausing (rest : Bytes) : Prop := ∀ d rest', rest = d :: rest' → isDelimiter d = true

theorem hexIntGroups_pausing {g rest : Bytes} (hnul : (0 : UInt8) ∉ rest) (hrest : Pausing rest) :
    hexIntGroups g rest =
      (if g = [] then [] else [g]) ++ hexIntGroups [] (rest.dropWhile isDelimiter) := by
  have hds : ∀ d ∈ rest.takeWhile isDelimiter, d = 44 ∨ d = 32 := by
    intro d hd
    have hzero : d ≠ 0 := by
      rintro rfl
      exact hnul (List.takeWhile_prefix _ |>.subset hd)
    have hdelim := List.mem_takeWhile_imp hd
    rw [isDelimiter, Bool.or_eq_true, Bool.or_eq_true, beq_iff_eq, beq_iff_eq, beq_iff_eq] at hdelim
    exact hdelim.resolve_right hzero
  cases rest with
  | nil => rw [hexIntGroups, List.dropWhile_nil, hexIntGroups, if_pos rfl, List.append_nil]
  | cons d rest =>
    have hd := hrest d rest rfl
    rw [List.takeWhile_cons, if_pos hd] at hds
    obtain ⟨hhead, hds⟩ := List.forall_mem_cons.mp hds
    rw [hexIntGroups, if_pos hhead, List.dropWhile_cons, if_pos hd]
    nth_rewrite 1 [← List.takeWhile_append_dropWhile (p := isDelimiter) (l := rest)]
    rw [hexIntGroups_delimiters hds]

/-- At least one byte is eaten, and the end of the text only after all the rest. -/
theorem eaten_pausing {rest : Bytes} (hrest : Pausing rest) :
    ∃ count, ((rest ++ [0]).takeWhile isDelimiter).length = count + 1 ∧
      (rest.dropWhile isDelimiter = [] ∧ count = rest.length ∨
        count + 1 = (rest.takeWhile isDelimiter).length) := by
  have heaten := eaten_length rest
  have hsum : rest.length =
      (rest.takeWhile isDelimiter).length + (rest.dropWhile isDelimiter).length := by
    rw [← List.length_append, List.takeWhile_append_dropWhile]
  by_cases hafter : rest.dropWhile isDelimiter = []
  · rw [if_pos hafter] at heaten
    rw [hafter, List.length_nil] at hsum
    exact ⟨_, heaten, .inl ⟨hafter, hsum.symm⟩⟩
  · rw [if_neg hafter, Nat.add_zero] at heaten
    cases rest with
    | nil => exact absurd rfl hafter
    | cons d rest =>
      rw [List.takeWhile_cons, if_pos (hrest d rest rfl), List.length_cons] at heaten
      refine ⟨_, heaten, .inr ?_⟩
      rw [List.takeWhile_cons, if_pos (hrest d rest rfl), List.length_cons]

/-- The loop stands behind the first bytes `g` of a group of the text; `rest` is to come. -/
structure InGroup {m : Nat} (t front g rest : Bytes) (c : Copy m) : Prop where
  split : t = front ++ (g ++ rest)
  fromPos : c.fromPos = front.length
  pos : c.pos = front.length + g.length
  hexCount : c.hexCount = g.length
  short : g.length < 8

section InGroup
variable {m maxstrlen : Nat} {t front g rest : Bytes} {c : Copy m} {d : UInt8}

theorem InGroup.buffer (h : InGroup t front g rest c) :
    t ++ [0] = front ++ (g ++ (rest ++ [0])) := by
  rw [h.split, List.append_assoc, List.append_assoc]

theorem InGroup.length (h : InGroup t front g rest c) : t.length = c.pos + rest.length := by
  rw [h.pos, h.split, List.length_append, List.length_append, Nat.add_assoc]

theorem InGroup.eaten (h : InGroup t front g rest c) :
    eatDelimiter (t ++ [0]) c.pos t.length =
      some ((rest ++ [0]).takeWhile isDelimiter).length := by
  have hdrop : (t ++ [0]).drop c.pos = rest ++ [0] := by
    rw [h.buffer, h.pos, ← List.append_assoc, List.drop_left' List.length_append]
  have hsize : (t ++ [0]).length = t.length + 1 := by simp
  rw [eatDelimiter_eq hsize c.pos, hdrop]

theorem InGroup.digit (h : InGroup t front g (d :: rest) c) (hd : isDelimiter d = false) :
    eatDelimiter (t ++ [0]) c.pos t.length = some 0 := by
  rw [h.eaten, List.cons_append, List.takeWhile_cons, hd, if_neg Bool.false_ne_true]
  rfl

/-- One more digit of a group that is not full. -/
theorem InGroup.turn_digit (h : InGroup t front g (d :: rest) c) (hd : isDelimiter d = false)
    (hmore : g.length ≠ 7) :
    copyTurn (t ++ [0]) t.length c =
        some { c with pos := c.pos + 1, hexCount := c.hexCount + 1 } ∧
      InGroup t front (g ++ [d]) rest { c with pos := c.pos + 1, hexCount := c.hexCount + 1 } := by
  have hcount := h.hexCount
  have hpos := h.pos
  have hshort := h.short
  have hlen : (g ++ [d]).length = g.length + 1 := List.length_append
  constructor
  · rw [copyTurn, h.digit hd]
    dsimp only
    rw [hcount, if_neg (by omega)]
  · refine ⟨by rw [h.split]; simp, h.fromPos, ?_, ?_, by omega⟩
    · rw [hlen]
      dsimp only
      omega
    · rw [hlen, ← hcount]

/-- The eighth digit fills the group, and the group is written. -/
theorem InGroup.turn_full (h : InGroup t front g (d :: rest) c) (hd : isDelimiter d = false)
    (hfull : g.length = 7) :
    copyTurn (t ++ [0]) t.length c =
        (c.tostr.write c.toPos (padded (g ++ [d]))).map (fun tostr =>
          ⟨c.pos + 1, 0, c.fromPos + 8, c.toPos + 8, tostr⟩) ∧
      ∀ tostr, InGroup t (front ++ (g ++ [d])) [] rest
        (⟨c.pos + 1, 0, c.fromPos + 8, c.toPos + 8, tostr⟩ : Copy m) := by
  have hcount := h.hexCount
  have hpos := h.pos
  have hfrom := h.fromPos
  have height : (g ++ [d]).length = 8 := by rw [List.length_append, hfull]; rfl
  have hlen : (front ++ (g ++ [d])).length = front.length + 8 := by
    rw [List.length_append, height]
  constructor
  · have hcopy := copy_eq c.tostr c.toPos front height.le (rest ++ [0])
    have hbuffer : t ++ [0] = front ++ (g ++ [d] ++ (rest ++ [0])) := by
      rw [h.buffer]
      simp
    rw [height, ← hbuffer, ← hfrom] at hcopy
    rw [copyTurn, h.digit hd]
    dsimp only
    rw [hcount, hfull, if_pos rfl, hcopy]
  · intro tostr
    refine ⟨by rw [h.split]; simp, by rw [hlen, ← hfrom], ?_, rfl, by decide⟩
    rw [hlen, List.length_nil]
    dsimp only
    omega

/-- At a delimiter or the end of the text the group is over, and it is written if it is begun. -/
theorem InGroup.turn_over (h : InGroup t front g rest c) {count : Nat}
    (heaten : ((rest ++ [0]).takeWhile isDelimiter).length = count + 1) :
    copyTurn (t ++ [0]) t.length c =
      if g = [] then some { c with pos := c.pos + (count + 1), fromPos := c.pos + (count + 1) }
      else (c.tostr.write c.toPos (padded g)).map fun tostr =>
        ⟨c.pos + (count + 1), 0, c.pos + (count + 1), c.toPos + 8, tostr⟩ := by
  have hsize : c.pos - c.fromPos = g.length := by
    have hpos := h.pos
    have hfrom := h.fromPos
    omega
  have hcopy := copy_eq c.tostr c.toPos front h.short.le (rest ++ [0])
  rw [← h.buffer, ← h.fromPos] at hcopy
  rw [copyTurn, h.eaten, heaten]
  dsimp only
  rw [hsize]
  by_cases hempty : g = []
  · rw [if_pos hempty, if_neg (by rw [hempty]; decide), Option.map_some]
  · rw [if_neg hempty, if_pos (List.length_pos_iff.mpr hempty), hcopy, Option.map_map]
    rfl

/-- Where the loop goes on behind the delimiters, the next group begins. -/
theorem InGroup.next (h : InGroup t front g rest c) {c' : Copy m}
    (hpos : c'.pos = c.pos + (rest.takeWhile isDelimiter).length) (hfrom : c'.fromPos = c'.pos)
    (hcount : c'.hexCount = 0) :
    InGroup t (front ++ (g ++ rest.takeWhile isDelimiter)) [] (rest.dropWhile isDelimiter) c' := by
  have hrest : rest.takeWhile isDelimiter ++ rest.dropWhile isDelimiter = rest :=
    List.takeWhile_append_dropWhile
  have hlen : (front ++ (g ++ rest.takeWhile isDelimiter)).length = c'.pos := by
    rw [hpos, h.pos, List.length_append, List.length_append, Nat.add_assoc]
  refine ⟨?_, by rw [hfrom, hlen], by rw [hlen]; rfl, hcount, by decide⟩
  rw [h.split, List.nil_append, List.append_assoc, List.append_assoc, hrest]

/-- A turn that writes a group places it, if the loop places the others. -/
theorem copyLoop_written {string x : Bytes} {gs : List Bytes} {origLen : Nat}
    (hpos : c.pos ≤ origLen) {next : Block m → Copy m}
    (hturn : copyTurn string origLen c = (c.tostr.write c.toPos (padded x)).map next)
    (hto : ∀ tostr, (next tostr).toPos = c.toPos + 8) (htostr : ∀ tostr, (next tostr).tostr = tostr)
    (hrest : ∀ tostr, c.toPos + 8 ≤ maxstrlen →
      copyLoop string origLen maxstrlen (next tostr) = place maxstrlen gs (c.toPos + 8) tostr) :
    copyLoop string origLen maxstrlen c = place maxstrlen (x :: gs) c.toPos c.tostr := by
  rw [copyLoop_turn hpos, hturn, place]
  cases c.tostr.write c.toPos (padded x) with
  | none => rfl
  | some tostr =>
    rw [Option.map_some, Option.bind_some, Option.bind_some, hto, htostr]
    by_cases hend : maxstrlen < c.toPos + 8
    · rw [if_pos hend, if_pos hend]
    · rw [if_neg hend, if_neg hend, hrest tostr (Nat.le_of_not_lt hend)]

/-- The loop places the groups of the rest of the text; the group in front of it is begun. -/
theorem copyLoop_eq (ht : (0 : UInt8) ∉ t) (h : InGroup t front g rest c)
    (hto : c.toPos ≤ maxstrlen) :
    copyLoop (t ++ [0]) t.length maxstrlen c =
      place maxstrlen (hexIntGroups g rest) c.toPos c.tostr := by
  induction hsize : rest.length using Nat.strong_induction_on generalizing front g rest c with
  | _ n ih =>
  have hlength := h.length
  have hinside : c.pos ≤ t.length := by omega
  by_cases hplain : ∃ d rest', rest = d :: rest' ∧ isDelimiter d = false
  · obtain ⟨d, rest', rfl, hd⟩ := hplain
    have hdelim : ¬(d = 44 ∨ d = 32) := by
      rintro (rfl | rfl) <;> exact absurd hd (by decide)
    have hless : rest'.length < n := by
      rw [← hsize]
      exact Nat.lt_succ_self _
    rw [hexIntGroups, if_neg hdelim]
    by_cases hfull : g.length = 7
    · obtain ⟨hturn, hnext⟩ := h.turn_full hd hfull
      rw [if_pos hfull]
      exact copyLoop_written hinside hturn (fun _ => rfl) (fun _ => rfl) fun tostr hroom =>
        ih rest'.length hless (hnext tostr) hroom rfl
    · obtain ⟨hturn, hnext⟩ := h.turn_digit hd hfull
      rw [if_neg hfull, copyLoop_turn hinside, hturn, Option.bind_some,
        if_neg (Nat.not_lt.mpr hto)]
      exact ih rest'.length hless hnext hto rfl
  · have hpausing : Pausing rest := fun d rest' heq =>
      Bool.eq_true_of_not_eq_false fun hd => hplain ⟨d, rest', heq, hd⟩
    have hnul : (0 : UInt8) ∉ rest := fun hmem =>
      ht (h.split ▸ List.mem_append_right _ (List.mem_append_right _ hmem))
    obtain ⟨count, heaten, hnext⟩ := eaten_pausing hpausing
    have hturn := h.turn_over heaten
    -- What is left is done from behind the delimiters.
    have hloop : ∀ c' : Copy m, c'.pos = c.pos + (count + 1) →
        c'.fromPos = c.pos + (count + 1) → c'.hexCount = 0 → c'.toPos ≤ maxstrlen →
        copyLoop (t ++ [0]) t.length maxstrlen c' =
          place maxstrlen (hexIntGroups [] (rest.dropWhile isDelimiter)) c'.toPos c'.tostr := by
      intro c' hpos' hfrom' hcount' hto'
      rcases hnext with ⟨hafter, hend⟩ | heaten'
      · rw [copyLoop_end (by omega), hafter]
        rfl
      · have hshorter : (rest.dropWhile isDelimiter).length < n := by
          have hsum := congrArg List.length
            (List.takeWhile_append_dropWhile (p := isDelimiter) (l := rest))
          rw [List.length_append] at hsum
          omega
        rw [heaten'] at hpos'
        exact ih _ hshorter (h.next hpos' (hfrom'.trans (by rw [hpos', heaten'])) hcount') hto' rfl
    rw [hexIntGroups_pausing hnul hpausing]
    by_cases hempty : g = []
    · rw [if_pos hempty] at hturn
      rw [if_pos hempty, List.nil_append, copyLoop_turn hinside, hturn, Option.bind_some,
        if_neg (Nat.not_lt.mpr hto)]
      refine hloop _ rfl rfl ?_ hto
      dsimp only
      rw [h.hexCount, hempty]
      rfl
    · rw [if_neg hempty] at hturn
      rw [if_neg hempty, List.singleton_append]
      exact copyLoop_written hinside hturn (fun _ => rfl) (fun _ => rfl) fun tostr hroom =>
        hloop _ rfl rfl rfl hroom

end InGroup

theorem hexIntGroups_mem {group s : Bytes} (hlen : group.length < 8) :
    ∀ g ∈ hexIntGroups group s, g.length ≤ 8 ∧ ∀ c ∈ g, c ∈ group ++ s := by
  induction s generalizing group with
  | nil =>
    intro g hg
    rw [hexIntGroups] at hg
    split at hg
    · exact absurd hg List.not_mem_nil
    · rw [List.mem_singleton.mp hg, List.append_nil]
      exact ⟨hlen.le, fun c hc => hc⟩
  | cons d s ih =>
    have hlater : ∀ g ∈ hexIntGroups [] s, g.length ≤ 8 ∧ ∀ c ∈ g, c ∈ group ++ d :: s := by
      intro g hg
      obtain ⟨hg8, hmem⟩ := ih (by decide) g hg
      exact ⟨hg8, fun c hc => List.mem_append_right _ (List.mem_cons_of_mem d (hmem c hc))⟩
    intro g hg
    rw [hexIntGroups] at hg
    split at hg
    · rcases List.mem_append.mp hg with hg | hg
      · split at hg
        · exact absurd hg List.not_mem_nil
        · rw [List.mem_singleton.mp hg]
          exact ⟨hlen.le, fun c hc => List.mem_append_left _ hc⟩
      · exact hlater g hg
    · rw [List.append_cons]
      split at hg
      · rcases List.mem_cons.mp hg with rfl | hg
        · rw [List.length_append, List.length_singleton]
          exact ⟨by omega, fun c hc => List.mem_append_left _ hc⟩
        · rw [← List.append_cons]
          exact hlater g hg
      · exact ih (by rw [List.length_append, List.length_singleton]; omega) g hg

theorem padded_length {g : Bytes} (hg : g.length ≤ 8) : (padded g).length = 8 := by
  rw [padded, List.length_append, List.length_replicate]
  omega

/-- The groups in the buffer are those of the copy. -/
theorem place_eq {maxstrlen : Nat} {gs : List Bytes} (hgs : ∀ g ∈ gs, g.length ≤ 8) {front : Bytes}
    {b : Block (maxstrlen + 1)}
    (hb : b.1 = front ++ List.replicate (maxstrlen + 1 - front.length) 0)
    (hfront : front.length ≤ maxstrlen) :
    (place maxstrlen gs front.length b).map (·.1) = (copyHexInts maxstrlen gs front.length).map
      fun t => front ++ t ++ List.replicate (maxstrlen + 1 - (front ++ t).length) 0 := by
  induction gs generalizing front b with
  | nil =>
    rw [place, copyHexInts, Option.map_some, Option.map_some, List.append_nil, hb]
  | cons g gs ih =>
    obtain ⟨hg, hgs⟩ := List.forall_mem_cons.mp hgs
    have hlen := padded_length hg
    rw [place, copyHexInts, if_neg (by omega)]
    by_cases hfits : maxstrlen + 1 < front.length + 8
    · have hnone : b.write front.length (padded g) = none := by
        rw [Block.write, dif_neg (by omega)]
      rw [if_pos hfits, hnone]
      rfl
    · have hroom : (padded g).length ≤
          (List.replicate (maxstrlen + 1 - front.length) (0 : UInt8)).length := by
        rw [hlen, List.length_replicate]
        omega
      obtain ⟨c, hc, hcval⟩ := Block.write_after hb rfl hroom
      have hshift : (front ++ padded g).length = front.length + 8 := by
        rw [List.length_append, hlen]
      rw [if_neg hfits, hc, Option.bind_some]
      rw [List.drop_replicate, hlen, Nat.sub_sub, ← hshift] at hcval
      by_cases hend : maxstrlen < front.length + 8
      · have hstop : copyHexInts maxstrlen gs (front.length + 8) = some [] := by
          cases gs with
          | nil => rfl
          | cons g' gs => rw [copyHexInts, if_pos hend]
        rw [if_pos hend, hstop, Option.map_some, Option.map_some, Option.map_some, hcval,
          List.append_nil]
        rfl
      · rw [if_neg hend, ← hshift, ih hgs hcval (by omega), Option.map_map]
        congr 1
        funext t
        simp only [Function.comp_apply, padded, List.append_assoc]

/-- How much of the groups is copied, and when they do not fit. -/
theorem copyHexInts_eq {maxstrlen : Nat} {gs : List Bytes} (hgs : ∀ g ∈ gs, g.length ≤ 8)
    {toPos : Nat} (hto : toPos ≤ maxstrlen) : copyHexInts maxstrlen gs toPos =
      if gs.length ≤ (maxstrlen - toPos) / 8 ∨ (maxstrlen - toPos) % 8 = 7 then
        some ((gs.take ((maxstrlen - toPos) / 8 + 1)).map padded).flatten
      else none := by
  induction gs generalizing toPos with
  | nil => simp [copyHexInts]
  | cons g gs ih =>
    rw [copyHexInts, if_neg (Nat.not_lt.mpr hto), List.length_cons]
    by_cases hfits : maxstrlen + 1 < toPos + 8
    · rw [if_pos hfits, if_neg (by omega)]
    · rw [if_neg hfits]
      by_cases hend : maxstrlen < toPos + 8
      · have hstop : copyHexInts maxstrlen gs (toPos + 8) = some [] := by
          cases gs with
          | nil => rfl
          | cons g' gs => rw [copyHexInts, if_pos hend]
        have hquot : (maxstrlen - toPos) / 8 = 0 := by omega
        rw [hstop, if_pos (by omega), hquot, Option.map_some, List.append_nil]
        simp [padded]
      · have hquot : (maxstrlen - toPos) / 8 = (maxstrlen - (toPos + 8)) / 8 + 1 := by omega
        have hrem : (maxstrlen - toPos) % 8 = (maxstrlen - (toPos + 8)) % 8 := by omega
        rw [ih (fun g' hg' => hgs g' (List.mem_cons_of_mem g hg')) (Nat.le_of_not_lt hend), hquot,
          hrem]
        simp only [Nat.add_le_add_iff_right]
        split
        · rw [Option.map_some, List.take_succ_cons, List.map_cons, List.flatten_cons]
          rfl
        · rfl

theorem padded_flatten_length {gs : List Bytes} (hgs : ∀ g ∈ gs, g.length ≤ 8) :
    (gs.map padded).flatten.length = 8 * gs.length := by
  induction gs with
  | nil => rfl
  | cons g gs ih =>
    obtain ⟨hg, hgs⟩ := List.forall_mem_cons.mp hgs
    rw [List.map_cons, List.flatten_cons, List.length_append, padded_length hg, ih hgs,
      List.length_cons]
    omega

/-- The groups that are not copied would lie behind the limit. -/
theorem take_groups (maxstrlen : Nat) {gs : List Bytes} (hgs : ∀ g ∈ gs, g.length ≤ 8) :
    ((gs.take (maxstrlen / 8 + 1)).map padded).flatten.take maxstrlen =
      (gs.map padded).flatten.take maxstrlen := by
  by_cases hall : gs.length ≤ maxstrlen / 8 + 1
  · rw [List.take_of_length_le hall]
  · have htake : ∀ g ∈ gs.take (maxstrlen / 8 + 1), g.length ≤ 8 :=
      fun g hg => hgs g (List.mem_of_mem_take hg)
    have hlen := padded_flatten_length htake
    rw [List.length_take] at hlen
    nth_rewrite 2 [← List.take_append_drop (maxstrlen / 8 + 1) gs]
    rw [List.map_append, List.flatten_append, List.take_append_of_le_length (by omega)]

variable {string : Bytes} {maxstrlen : Nat}

theorem groups_short (string : Bytes) : ∀ g ∈ hexIntGroups [] (cstr string), g.length ≤ 8 :=
  fun g hg => (hexIntGroups_mem (by decide) g hg).1

theorem padded_nul_free {gs : List Bytes} (hgs : ∀ g ∈ gs, (0 : UInt8) ∉ g) :
    (0 : UInt8) ∉ (gs.map padded).flatten := by
  intro h
  obtain ⟨l, hl, hmem⟩ := List.mem_flatten.mp h
  obtain ⟨g, hg, rfl⟩ := List.mem_map.mp hl
  rcases List.mem_append.mp hmem with hzero | hzero
  · exact absurd (List.eq_of_mem_replicate hzero) (by decide)
  · exact hgs g hg hzero

/-- A text with zeros behind it, cut at the limit. -/
theorem cstr_cut {t : Bytes} (ht : (0 : UInt8) ∉ t) {n k : Nat} :
    cstr ((t ++ List.replicate n 0).take k ++ [0]) = t.take k := by
  have htake : (0 : UInt8) ∉ t.take k := fun h => ht (List.mem_of_mem_take h)
  rw [List.take_append]
  cases hrest : (List.replicate n (0 : UInt8)).take (k - t.length) with
  | nil => rw [List.append_nil, cstr_nul_free htake]
  | cons c rest =>
    have hc : c = 0 := by
      refine List.eq_of_mem_replicate (n := n) (List.mem_of_mem_take (i := k - t.length) ?_)
      rw [hrest]
      exact List.mem_cons_self
    rw [hc, List.append_assoc, List.cons_append, cstr_nul_free htake]

/-- The loop with its positions does what the groups say. -/
theorem toHexStringIntBuffer_eq (string : Bytes) {maxstrlen : Nat}
    (hsize : maxstrlen + 1 < 2 ^ 31) :
    (toHexStringIntBuffer string maxstrlen).map (fun tostr => cstr tostr.1) =
      toHexStringInt string maxstrlen := by
  have hnul := nul_not_mem_cstr string
  have hzeros : (Block.zeros (maxstrlen + 1)).1 =
      [] ++ List.replicate (maxstrlen + 1 - ([] : Bytes).length) 0 := rfl
  have hplace := place_eq (groups_short string) hzeros (Nat.zero_le _)
  have hstart : InGroup (cstr string) [] [] (cstr string)
      ⟨0, 0, 0, 0, Block.zeros (maxstrlen + 1)⟩ :=
    ⟨rfl, rfl, rfl, rfl, by decide⟩
  rw [toHexStringIntBuffer, if_neg (Nat.not_le.mpr hsize)]
  dsimp only
  rw [strlen, copyLoop_eq hnul hstart (Nat.zero_le _), toHexStringInt]
  dsimp only
  have hcopy := copyHexInts_eq (groups_short string) (Nat.zero_le maxstrlen)
  rw [List.length_nil] at hplace
  rw [hcopy] at hplace ⊢
  split
  · rename_i hfits
    rw [if_pos hfits, Option.map_some] at hplace
    obtain ⟨b, hb, hval⟩ := Option.map_eq_some_iff.mp hplace
    have hlen : [(0 : UInt8)].length ≤ (b.1.drop maxstrlen).length := by
      rw [List.length_drop, b.2, List.length_singleton]
      omega
    have hfront : (b.1.take maxstrlen).length = maxstrlen := by
      rw [List.length_take, b.2]
      exact Nat.min_eq_left (Nat.le_succ _)
    obtain ⟨c, hc, hcval⟩ :=
      Block.write_after (List.take_append_drop maxstrlen b.1).symm hfront hlen
    have hfull : (b.1.drop maxstrlen).drop [(0 : UInt8)].length = [] := by
      rw [List.drop_drop, List.length_singleton]
      exact List.drop_of_length_le b.2.le
    rw [hfull, List.append_nil, hval, List.nil_append] at hcval
    rw [hb, Option.bind_some, hc, Option.map_some, Option.map_some, hcval, cstr_cut]
    refine padded_nul_free fun g hg hzero => ?_
    have hmem := (hexIntGroups_mem (by decide) g (List.mem_of_mem_take hg)).2 0 hzero
    exact hnul hmem
  · rename_i hover
    rw [if_neg hover, Option.map_none, Option.map_eq_none_iff] at hplace
    rw [hplace]
    rfl

/-- The buffer ends up with the groups of the text, as far as the limit allows. -/
def Right (string : Bytes) (maxstrlen : Nat) : Prop :=
  ∃ tostr, toHexStringIntBuffer string maxstrlen = some tostr ∧
    cstr tostr.1 = ((groupsOf (cstr string)).map padded).flatten.take maxstrlen

/-- The size of the buffer must be an `int`, and a group goes over the end of the buffer unless
there are few enough groups, or the end of the buffer is the end of a group. -/
theorem right_iff (string : Bytes) (maxstrlen : Nat) : Right string maxstrlen ↔
    maxstrlen + 1 < 2 ^ 31 ∧
      ((groupsOf (cstr string)).length ≤ maxstrlen / 8 ∨ maxstrlen % 8 = 7) := by
  by_cases hsize : maxstrlen + 1 < 2 ^ 31
  · have hgroups : hexIntGroups [] (cstr string) = groupsOf (cstr string) :=
      hexIntGroups_eq (fun _ h => absurd h List.not_mem_nil) (by decide) (nul_not_mem_cstr string)
    have hcopy := copyHexInts_eq (groups_short string) (Nat.zero_le maxstrlen)
    have htake := take_groups maxstrlen (groups_short string)
    have hbuffer := toHexStringIntBuffer_eq string hsize
    rw [toHexStringInt, hcopy, hgroups, Nat.sub_zero] at hbuffer
    rw [hgroups] at htake
    rw [and_iff_right hsize]
    constructor
    · rintro ⟨tostr, htostr, -⟩
      rw [htostr, Option.map_some] at hbuffer
      by_contra hover
      rw [if_neg hover] at hbuffer
      cases hbuffer
    · intro hfits
      rw [if_pos hfits, Option.map_some, htake] at hbuffer
      obtain ⟨tostr, htostr, hval⟩ := Option.map_eq_some_iff.mp hbuffer
      exact ⟨tostr, htostr, hval⟩
  · apply iff_of_false
    · rintro ⟨tostr, htostr, -⟩
      rw [toHexStringIntBuffer, if_pos (Nat.not_lt.mp hsize)] at htostr
      cases htostr
    · exact fun h => hsize h.1

/-- Two groups for a field of four bytes. -/
theorem two_groups_not_right : ¬Right (ascii "1,2") 8 := by
  rintro ⟨tostr, htostr, -⟩
  have hbuffer := toHexStringIntBuffer_eq (ascii "1,2") (by decide : 8 + 1 < 2 ^ 31)
  have hfault : toHexStringInt (ascii "1,2") 8 = none := by decide
  rw [htostr, hfault] at hbuffer
  cases hbuffer

end HexGroups
