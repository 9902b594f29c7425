import BoaGateway.CsrfToken
import BoaGateway.Occurrences

/-!
# The pages that are made on the way

`init_get2` copies a page into the buffer and runs what stands between `<%` and `%>`, and
`handleScript` calls the functions that are registered in `root_asp`. The functions are
parameters: they take their `argv` and write with `boaWrite`.
-/

namespace AspPages

open ByteBlocks Texts Occurrences CsrfToken

variable {σ : Type}

/-- A function of `root_asp`, with the texts that it writes. -/
abbrev Handler (σ : Type) := List Bytes → σ → List Bytes × σ

/-- `root_asp`; what is defined last comes first. -/
abbrev AspList (σ : Type) := List (Bytes × Handler σ)

def boaASPDefine (name : Bytes) (fn : Handler σ) (root : AspList σ) : AspList σ := (name, fn) :: root

/-- A request whose page is read, with what the functions have in common. -/
structure Request (σ : Type) where
  conn : Conn
  filepos : Nat
  closing : Bool
  state : σ

def strspn (set s : Bytes) : Nat := (s.takeWhile (· ∈ set)).length

def strcspn (set s : Bytes) : Nat := (s.takeWhile (· ∉ 0 :: set)).length

def memchr (c : UInt8) (n : Nat) (s : Bytes) : Option Nat := (s.take n).findIdx? (· == c)

/-- The loop over the strings of a call. `left` is what stands from there on, and the others are
how far `right` and `semicolon` are from it. It ends within `right` turns. -/
def arguments : Nat → Bytes → Nat → Nat → List Bytes → Option (List Bytes × Bytes × Nat)
  | 0, left, right, _, argv => some (argv, left, right)
  | n + 1, left, right, semicolon, argv =>
    if 0 < right ∧ 0 < semicolon then
      match memchr 34 right left with
      | none => some (argv, left, right)
      | some start =>
        if semicolon ≤ start ∨ right ≤ start then some (argv, left, right)
        else
          match memchr 34 (right - (start + 1)) (left.drop (start + 1)) with
          | none => some (argv, left, right)
          | some len =>
            let stop := start + 1 + len
            if semicolon ≤ stop ∨ right ≤ stop then some (argv, left, right)
            -- there are eight places in `argv`
            else if argv.length < 8 then
              arguments n (left.drop (stop + 1)) (right - (stop + 1)) (semicolon - (stop + 1))
                (argv ++ [cstr ((left.drop (start + 1)).take len)])
            else none
    else some (argv, left, right)

/-- The call of a function whose name is in front of `left`. -/
def callAsp (function : Handler σ) (left : Bytes) (right : Nat) (req : Request σ) :
    Option (Bytes × Nat × Request σ) :=
  let semicolon := (memchr 59 (right + 1) left).getD 0
  (arguments right left right semicolon []).bind fun (argv, left, right) =>
    ((function argv req.state).1.foldlM (fun c text => boaWrite text c) req.conn).map fun conn =>
      (left, right, { req with conn := conn, state := (function argv req.state).2 })

/-- The loop of `handleScript`; it ends within `right` turns. -/
def scriptTurns (root : AspList σ) : Nat → Bytes → Nat → Request σ → Option (Request σ)
  | 0, _, _, req => some req
  | n + 1, left, right, req =>
    if 0 < right then
      let blanks := strspn (ascii " ;(),") left
      let left := left.drop blanks
      let right := right - blanks
      if right = 0 then some req
      else
        let funcNameLength := strcspn (ascii "( ") left
        let next (left : Bytes) (right : Nat) (req : Request σ) : Option (Request σ) :=
          scriptTurns root n (left.drop (strcspn (ascii " ") left + 1))
            (right - (strcspn (ascii " ") left + 1)) req
        match root.find? fun asp => asp.1 == left.take funcNameLength with
        | none => next left right req
        | some asp =>
          -- the length for `memchr` would be negative
          if right + 1 < funcNameLength then none
          else
            (callAsp asp.2 (left.drop funcNameLength) (right - funcNameLength) req).bind
              fun (left, right, req) => next left right req
    else some req

/-- `left` and how far `right` is from it are those of the two marks. -/
def handleScript (root : AspList σ) (left : Bytes) (right : Nat) (req : Request σ) :
    Option (Request σ) :=
  scriptTurns root (right - 3) (left.drop 2) (right - 3) req

/-- A part of the file is put into the buffer. -/
def copyPart (data : Bytes) (bob : Nat) (req : Request σ) : Option (Request σ) :=
  (put ((data.drop req.filepos).take bob) (growFor bob bob req.conn)).map fun conn =>
    { req with conn := conn }

def parsePage (root : AspList σ) (data : Bytes) : Nat → Nat → Request σ → Option (Request σ)
  | 0, _, req => some req
  | n + 1, lastRight, req =>
    if data.length ≤ lastRight then some req
    else
      let tail :=
        (copyPart data (data.length - lastRight) req).map fun req =>
          { req with filepos := req.filepos + (data.length - lastRight) }
      match cutFirst (ascii "<%") (data.drop lastRight) with
      | none => tail
      | some (text, behind) =>
        match cutFirst (ascii "%>") (ascii "<%" ++ behind) with
        | none => tail
        | some (script, _) =>
          let left := lastRight + text.length
          let lastRight := left + script.length + 2
          (copyPart data text.length req).bind fun req =>
            (handleScript root (data.drop left) script.length
                { req with filepos := req.filepos + (text.length + lastRight - left) }).bind
              (parsePage root data n lastRight)

/-- `init_get2` behind `send_r_request_ok`, which has written to the buffer. The status is `CLOSE`
when the whole file has been read. -/
def initGet2 (root : AspList σ) (data : Bytes) (conn : Conn) (state : σ) : Option (Request σ) :=
  (parsePage root data data.length 0 ⟨conn, 0, false, state⟩).map fun req =>
    { req with closing := req.filepos = data.length }

/-- A call with the strings it is given, each with what stands between the one before and it, and
with what stands in front of the semicolon. Blanks follow. -/
structure Call where
  name : Bytes
  args : List (Bytes × Bytes)
  close : Bytes
  gap : Nat
  name_ne : name ≠ []
  name_plain : ∀ b ∈ name, b ∉ 0 :: ascii " ;(),"
  args_plain : ∀ a ∈ args, (∀ b ∈ a.1, b ∉ [0, 34, 59]) ∧ ∀ b ∈ a.2, b ∉ [0, 34, 59]
  close_plain : ∀ b ∈ close, b ∉ [0, 32, 34, 59]
  few : args.length ≤ 8

/-- The strings with their quotes. -/
def argsText (args : List (Bytes × Bytes)) : Bytes :=
  (args.map fun a => a.1 ++ 34 :: (a.2 ++ [34])).flatten

/-- What follows the name. -/
def Call.body (c : Call) : Bytes := argsText c.args ++ c.close

def Call.text (c : Call) : Bytes := c.name ++ (c.body ++ 59 :: List.replicate c.gap 32)

/-- A blank stands between two calls. -/
def Separated : List Call → Prop
  | [] => True
  | [_] => True
  | c :: d :: calls => 0 < c.gap ∧ Separated (d :: calls)

/-- The parameters follow in parentheses, and those of a name that nobody has defined are without
blanks. -/
def Call.Fits (root : AspList σ) (c : Call) : Prop :=
  c.body.head? = some 40 ∧ ((root.find? fun asp => asp.1 == c.name) = none → (32 : UInt8) ∉ c.body)

/-- What stands between `<%` and `%>`. -/
structure Script where
  lead : Nat
  calls : List Call
  separated : Separated calls

def callsText (calls : List Call) : Bytes := (calls.map Call.text).flatten

def Script.text (s : Script) : Bytes := List.replicate s.lead 32 ++ callsText s.calls

/-- Scripts, each with the text in front of it, and the text behind them. -/
structure Page where
  parts : List (Bytes × Script)
  tail : Bytes
  opens : ∀ p ∈ parts, ¬ ascii "<%" <:+: p.1
  ends : ∀ p ∈ parts, ¬ ascii "%>" <:+: ascii "<%" ++ p.2.text
  plain : ¬ ascii "<%" <:+: tail

def partsText (parts : List (Bytes × Script)) (tail : Bytes) : Bytes :=
  (parts.map fun p => p.1 ++ (ascii "<%" ++ (p.2.text ++ ascii "%>"))).flatten ++ tail

def Page.text (p : Page) : Bytes := partsText p.parts p.tail

/-- What is sent of texts that are written one after the other. -/
def shown (texts : List Bytes) : Bytes := (texts.map fun text => cstr (text.take 8191)).flatten

def renderCall (root : AspList σ) (c : Call) (state : σ) : Bytes × σ :=
  match root.find? fun asp => asp.1 == c.name with
  | none => ([], state)
  | some asp =>
    (shown (asp.2 (c.args.map Prod.snd) state).1, (asp.2 (c.args.map Prod.snd) state).2)

def renderCalls (root : AspList σ) : List Call → σ → Bytes × σ
  | [], state => ([], state)
  | c :: calls, state =>
    let first := renderCall root c state
    let rest := renderCalls root calls first.2
    (first.1 ++ rest.1, rest.2)

def renderParts (root : AspList σ) : List (Bytes × Script) → σ → Bytes × σ
  | [], state => ([], state)
  | p :: parts, state =>
    let first := renderCalls root p.2.calls state
    let rest := renderParts root parts first.2
    (p.1 ++ (first.1 ++ rest.1), rest.2)

def render (root : AspList σ) (p : Page) (state : σ) : Bytes × σ :=
  ((renderParts root p.parts state).1 ++ p.tail, (renderParts root p.parts state).2)

variable {c : UInt8} {set pre post : Bytes} {n : Nat}

theorem memchr_behind (hpre : c ∉ pre) (hn : pre.length < n) :
    memchr c n (pre ++ c :: post) = some pre.length := by
  obtain ⟨k, rfl⟩ : ∃ k, n = pre.length + (k + 1) := ⟨n - pre.length - 1, by omega⟩
  have hnone : pre.findIdx? (· == c) = none := by
    rw [List.findIdx?_eq_none_iff]
    intro b hb
    exact beq_eq_false_iff_ne.mpr fun heq => hpre (heq ▸ hb)
  rw [memchr, List.take_append, List.take_of_length_le (by omega), Nat.add_sub_cancel_left,
    List.take_succ_cons, List.findIdx?_append, hnone, List.findIdx?_cons,
    if_pos (beq_self_eq_true c), Option.map_some, Nat.zero_add, Option.none_or]

theorem strspn_all (hpre : ∀ b ∈ pre, b ∈ set) (hpost : ∀ b ∈ post.head?, b ∉ set) :
    strspn set (pre ++ post) = pre.length := by
  have hstop : post.takeWhile (· ∈ set) = [] := by
    cases post with
    | nil => rfl
    | cons b post =>
      apply List.takeWhile_cons_of_neg
      simpa using hpost b rfl
  rw [strspn, List.takeWhile_append_of_pos fun b hb => decide_eq_true (hpre b hb), hstop,
    List.append_nil]

theorem strcspn_stop (hpre : ∀ b ∈ pre, b ∉ 0 :: set) (hc : c ∈ 0 :: set) :
    strcspn set (pre ++ c :: post) = pre.length := by
  have hstop : (c :: post).takeWhile (· ∉ 0 :: set) = [] := by
    apply List.takeWhile_cons_of_neg
    rw [decide_eq_true_eq, not_not]
    exact hc
  rw [strcspn, List.takeWhile_append_of_pos fun b hb => decide_eq_true (hpre b hb), hstop,
    List.append_nil]

/-- Something has been written for a request, and so much of its file has been read. -/
structure Wrote (out : Bytes) (count : Nat) (state : σ) (req req' : Request σ) : Prop where
  conn : req'.conn = { req.conn with
    buffer := req.conn.buffer ++ out, maxBufferSize := req'.conn.maxBufferSize }
  bounded : Bounded req'.conn
  filepos : req'.filepos = req.filepos + count
  closing : req'.closing = req.closing
  state : req'.state = state

variable {root : AspList σ} {req req₁ req' : Request σ}

theorem Wrote.refl (h : Bounded req.conn) : Wrote [] 0 req.state req req := by
  refine ⟨?_, h, rfl, rfl, rfl⟩
  rw [List.append_nil]

theorem Wrote.trans {a b : Bytes} {i j : Nat} {s t : σ} (h₁ : Wrote a i s req req₁)
    (h₂ : Wrote b j t req₁ req') : Wrote (a ++ b) (i + j) t req req' := by
  refine ⟨?_, h₂.bounded, ?_, h₂.closing.trans h₁.closing, h₂.state⟩
  · rw [← List.append_assoc, h₂.conn, h₁.conn]
  · rw [h₂.filepos, h₁.filepos, Nat.add_assoc]

theorem Wrote.read {a : Bytes} {i : Nat} {s : σ} (h : Wrote a i s req req') (j : Nat) :
    Wrote a (i + j) s req { req' with filepos := req'.filepos + j } := by
  refine ⟨h.conn, h.bounded, ?_, h.closing, h.state⟩
  dsimp only
  rw [h.filepos, Nat.add_assoc]

/-- More in a buffer that has room for it. -/
theorem Bounded.more {conn : Conn} {out : Bytes} {m : Nat} (h : Bounded conn)
    (hle : conn.maxBufferSize ≤ m) (hroom : (conn.buffer ++ out).length ≤ m) :
    Bounded { conn with buffer := conn.buffer ++ out, maxBufferSize := m } := by
  refine ⟨h.size.trans hle, hroom, fun hstart => ?_⟩
  obtain ⟨hmark, hend⟩ := h.marked hstart
  refine ⟨hmark, hend.trans ?_⟩
  rw [List.length_append]
  exact Nat.le_add_right _ _

theorem boaWrite_texts (texts : List Bytes) {conn : Conn} (h : Bounded conn) :
    ∃ m, Bounded { conn with buffer := conn.buffer ++ shown texts, maxBufferSize := m } ∧
      texts.foldlM (fun c text => boaWrite text c) conn =
        some { conn with buffer := conn.buffer ++ shown texts, maxBufferSize := m } := by
  induction texts generalizing conn with
  | nil =>
    refine ⟨conn.maxBufferSize, ?_, ?_⟩
    · rw [shown, List.map_nil, List.flatten_nil, List.append_nil]
      exact h
    · rw [shown, List.map_nil, List.flatten_nil, List.append_nil]
      rfl
  | cons text texts ih =>
    obtain ⟨m₁, hle, hroom, hwrite⟩ := boaWrite_eq h text
    obtain ⟨m, hbounded, hrest⟩ := ih (Bounded.more h hle hroom)
    have hshown : shown (text :: texts) = cstr (text.take 8191) ++ shown texts := rfl
    rw [hshown, ← List.append_assoc]
    refine ⟨m, hbounded, ?_⟩
    rw [List.foldlM_cons, hwrite]
    exact hrest

theorem copyPart_wrote (data : Bytes) (bob : Nat) (h : Bounded req.conn) :
    ∃ req', copyPart data bob req = some req' ∧
      Wrote ((data.drop req.filepos).take bob) 0 req.state req req' := by
  have hpos : 0 < req.conn.maxBufferSize := lt_of_lt_of_le (by decide) h.size
  obtain ⟨m, hle, hm, hgrow⟩ := growFor_eq bob bob hpos h.fits
  have hfits := h.fits
  have htake : ((data.drop req.filepos).take bob).length ≤ bob := List.length_take_le _ _
  have hroom : req.conn.buffer.length + ((data.drop req.filepos).take bob).length ≤ m := by omega
  refine ⟨{ req with conn := { req.conn with
    buffer := req.conn.buffer ++ (data.drop req.filepos).take bob, maxBufferSize := m } }, ?_, ?_⟩
  · rw [copyPart, hgrow, put_eq hroom]
    rfl
  · refine ⟨rfl, Bounded.more h hle ?_, rfl, rfl, rfl⟩
    rw [List.length_append]
    exact hroom

theorem argsText_cons (a : Bytes × Bytes) (args : List (Bytes × Bytes)) :
    argsText (a :: args) = a.1 ++ 34 :: (a.2 ++ 34 :: argsText args) := by
  simp [argsText]

/-- The strings of a call are found, and what is read ends behind the last one. -/
theorem arguments_args {args : List (Bytes × Bytes)} {close rest : Bytes} {n right : Nat}
    {argv : List Bytes}
    (hargs : ∀ a ∈ args, (∀ b ∈ a.1, b ∉ [0, 34, 59]) ∧ ∀ b ∈ a.2, b ∉ [0, 34, 59])
    (hclose : (34 : UInt8) ∉ close) (hright : (argsText args ++ close).length ≤ right)
    (hn : right ≤ n) (hfew : argv.length + args.length ≤ 8) :
    arguments n (argsText args ++ (close ++ 59 :: rest)) right (argsText args ++ close).length argv =
      some (argv ++ args.map Prod.snd, close ++ 59 :: rest, right - (argsText args).length) := by
  induction args generalizing n right argv with
  | nil =>
    have hnone : argsText [] = [] := rfl
    rw [hnone, List.nil_append, List.nil_append, List.length_nil, Nat.sub_zero, List.map_nil,
      List.append_nil]
    cases n with
    | zero => rfl
    | succ n =>
      rw [arguments]
      split
      · cases hfound : memchr 34 right (close ++ 59 :: rest) with
        | none => rfl
        | some start =>
          -- the next quote, if there is one, is behind the semicolon
          have hlate : close.length ≤ start := by
            obtain ⟨hlt, hquote, -⟩ := List.findIdx?_eq_some_iff_getElem.mp hfound
            by_contra hearly
            have hearly : start < close.length := Nat.lt_of_not_le hearly
            rw [List.getElem_take, List.getElem_append_left hearly, beq_iff_eq] at hquote
            exact hclose (hquote ▸ List.getElem_mem hearly)
          exact if_pos (Or.inl hlate)
      · rfl
  | cons a args ih =>
    obtain ⟨⟨hsep, harg⟩, hargs⟩ := List.forall_mem_cons.mp hargs
    rw [argsText_cons] at hright ⊢
    simp only [List.length_append, List.length_cons] at hright
    cases n with
    | zero => omega
    | succ n =>
      have hquote₁ : (34 : UInt8) ∉ a.1 := fun h => hsep 34 h (by decide)
      have hquote₂ : (34 : UInt8) ∉ a.2 := fun h => harg 34 h (by decide)
      have hzero : (0 : UInt8) ∉ a.2 := fun h => harg 0 h (by decide)
      have hleft : a.1 ++ 34 :: (a.2 ++ 34 :: argsText args) ++ (close ++ 59 :: rest) =
          a.1 ++ 34 :: (a.2 ++ 34 :: (argsText args ++ (close ++ 59 :: rest))) := by simp
      have hstart : memchr 34 right
          (a.1 ++ 34 :: (a.2 ++ 34 :: (argsText args ++ (close ++ 59 :: rest)))) =
            some a.1.length := memchr_behind hquote₁ (by omega)
      have hdrop₁ : (a.1 ++ 34 :: (a.2 ++ 34 :: (argsText args ++ (close ++ 59 :: rest)))).drop
          (a.1.length + 1) = a.2 ++ 34 :: (argsText args ++ (close ++ 59 :: rest)) := by
        rw [List.drop_append, List.drop_of_length_le (by omega), List.nil_append,
          Nat.add_sub_cancel_left, List.drop_succ_cons, List.drop_zero]
      have hend : memchr 34 (right - (a.1.length + 1))
          (a.2 ++ 34 :: (argsText args ++ (close ++ 59 :: rest))) = some a.2.length :=
        memchr_behind hquote₂ (by omega)
      have hdrop₂ : (a.1 ++ 34 :: (a.2 ++ 34 :: (argsText args ++ (close ++ 59 :: rest)))).drop
          (a.1.length + 1 + a.2.length + 1) = argsText args ++ (close ++ 59 :: rest) := by
        rw [Nat.add_assoc, ← List.drop_drop, hdrop₁, List.drop_append,
          List.drop_of_length_le (by omega), List.nil_append, Nat.add_sub_cancel_left,
          List.drop_succ_cons, List.drop_zero]
      have hsemicolon : (a.1 ++ 34 :: (a.2 ++ 34 :: argsText args) ++ close).length =
          a.1.length + 1 + a.2.length + 1 + (argsText args ++ close).length := by
        simp only [List.length_append, List.length_cons]
        omega
      have hshort : argv.length < 8 := by
        rw [List.length_cons] at hfew
        omega
      have hroom : (argsText args ++ close).length ≤ right - (a.1.length + 1 + a.2.length + 1) := by
        rw [List.length_append]
        omega
      have hfew' : (argv ++ [a.2]).length + args.length ≤ 8 := by
        rw [List.length_append, List.length_singleton]
        rw [List.length_cons] at hfew
        omega
      have hturns : right - (a.1.length + 1 + a.2.length + 1) ≤ n := by omega
      have hrest := ih hargs hroom hturns hfew'
      rw [hleft, hsemicolon, arguments, if_pos (by omega), hstart]
      dsimp only
      rw [if_neg (by omega), hdrop₁, hend]
      dsimp only
      rw [if_neg (by omega), if_pos hshort, hdrop₂, List.take_left, cstr_eq_self hzero,
        Nat.add_sub_cancel_left, hrest, List.append_assoc, List.map_cons]
      simp only [List.length_append, List.length_cons, List.singleton_append]
      congr 3
      omega

/-- What follows the name has no byte at which a search ends. -/
theorem body_plain (c : Call) : ∀ b ∈ c.body, b ∉ [(0 : UInt8), 59] := by
  intro b hb hstop
  have hstop₁ : b ∈ [(0 : UInt8), 34, 59] := by
    rcases List.mem_pair.mp hstop with rfl | rfl <;> decide
  have hstop₂ : b ∈ [(0 : UInt8), 32, 34, 59] := by
    rcases List.mem_pair.mp hstop with rfl | rfl <;> decide
  have hquote : b ≠ 34 := by
    rcases List.mem_pair.mp hstop with rfl | rfl <;> decide
  rcases List.mem_append.mp hb with hb | hb
  · obtain ⟨text, htext, hb⟩ := List.mem_flatten.mp hb
    obtain ⟨a, ha, rfl⟩ := List.mem_map.mp htext
    obtain ⟨hsep, harg⟩ := c.args_plain a ha
    simp only [List.mem_append, List.mem_cons, List.not_mem_nil, or_false] at hb
    rcases hb with hb | hb | hb | hb
    · exact hsep b hb hstop₁
    · exact hquote hb
    · exact harg b hb hstop₁
    · exact hquote hb
  · exact c.close_plain b hb hstop₂

theorem callAsp_wrote (function : Handler σ) (c : Call) (rest : Bytes) {right : Nat}
    (hright : c.body.length ≤ right) (h : Bounded req.conn) :
    ∃ req', callAsp function (c.body ++ 59 :: rest) right req =
        some (c.close ++ 59 :: rest, right - (argsText c.args).length, req') ∧
      Wrote (shown (function (c.args.map Prod.snd) req.state).1) 0
        (function (c.args.map Prod.snd) req.state).2 req req' := by
  have hquote : (34 : UInt8) ∉ c.close := fun hb => c.close_plain 34 hb (by decide)
  have hsemicolon : (59 : UInt8) ∉ c.body := fun hb => body_plain c 59 hb (by decide)
  have hfound : memchr 59 (right + 1) (c.body ++ 59 :: rest) = some c.body.length :=
    memchr_behind hsemicolon (by omega)
  have hfew : ([] : List Bytes).length + c.args.length ≤ 8 := by
    rw [List.length_nil, Nat.zero_add]
    exact c.few
  have hargs : arguments right (argsText c.args ++ (c.close ++ 59 :: rest)) right
      (argsText c.args ++ c.close).length [] =
        some ([] ++ c.args.map Prod.snd, c.close ++ 59 :: rest,
          right - (argsText c.args).length) :=
    arguments_args c.args_plain hquote hright (Nat.le_refl right) hfew
  obtain ⟨m, hbounded, hwrite⟩ :=
    boaWrite_texts (function (c.args.map Prod.snd) req.state).1 h
  refine ⟨{ req with
    conn := { req.conn with
      buffer := req.conn.buffer ++ shown (function (c.args.map Prod.snd) req.state).1
      maxBufferSize := m }
    state := (function (c.args.map Prod.snd) req.state).2 }, ?_, rfl, hbounded, rfl, rfl, rfl⟩
  have hbody : c.body ++ 59 :: rest = argsText c.args ++ (c.close ++ 59 :: rest) := by
    rw [Call.body, List.append_assoc]
  rw [callAsp, hfound, hbody, Option.getD_some, Call.body, hargs, List.nil_append,
    Option.bind_some]
  dsimp only
  rw [hwrite, Option.map_some]

theorem scriptTurns_end (n : Nat) (left : Bytes) (req : Request σ) :
    scriptTurns root n left 0 req = some req := by
  cases n with
  | zero => rfl
  | succ n => rfl

theorem strcspn_ge (hpre : ∀ b ∈ pre, b ∉ 0 :: set) (post : Bytes) :
    pre.length ≤ strcspn set (pre ++ post) := by
  rw [strcspn, List.takeWhile_append_of_pos fun b hb => decide_eq_true (hpre b hb),
    List.length_append]
  exact Nat.le_add_right _ _

/-- The end of a turn. -/
def afterCall (root : AspList σ) (n : Nat) (left : Bytes) (right : Nat) (req : Request σ) :
    Option (Request σ) :=
  scriptTurns root n (left.drop (strcspn (ascii " ") left + 1))
    (right - (strcspn (ascii " ") left + 1)) req

/-- A turn at a name. -/
theorem scriptTurns_name {c : Call} (hopen : c.body.head? = some 40) {g n right : Nat}
    (hright : g < right) (rest : Bytes) :
    scriptTurns root (n + 1) (List.replicate g 32 ++ (c.name ++ (c.body ++ 59 :: rest))) right req =
      match root.find? fun asp => asp.1 == c.name with
      | none => afterCall root n (c.name ++ (c.body ++ 59 :: rest)) (right - g) req
      | some asp =>
        if right - g + 1 < c.name.length then none
        else (callAsp asp.2 (c.body ++ 59 :: rest) (right - g - c.name.length) req).bind
          fun (left, right, req) => afterCall root n left right req := by
  obtain ⟨b, name, hname⟩ := List.exists_cons_of_ne_nil c.name_ne
  obtain ⟨body, hbody⟩ : ∃ body, c.body = 40 :: body := List.head?_eq_some_iff.mp hopen
  have hspan : strspn (ascii " ;(),")
      (List.replicate g 32 ++ (c.name ++ (c.body ++ 59 :: rest))) = g := by
    rw [strspn_all, List.length_replicate]
    · intro d hd
      rw [List.eq_of_mem_replicate hd]
      decide
    · rw [hname]
      intro d hd
      obtain rfl : b = d := Option.some.inj hd
      exact fun hmem => c.name_plain b (hname ▸ List.mem_cons_self) (List.mem_cons_of_mem 0 hmem)
  have hdrop : (List.replicate g (32 : UInt8) ++ (c.name ++ (c.body ++ 59 :: rest))).drop g =
      c.name ++ (c.body ++ 59 :: rest) := by
    rw [List.drop_append, List.length_replicate, Nat.sub_self, List.drop_zero,
      List.drop_of_length_le (by rw [List.length_replicate]), List.nil_append]
  have hfunc : strcspn (ascii "( ") (c.name ++ (c.body ++ 59 :: rest)) = c.name.length := by
    have hsubset : 0 :: ascii "( " ⊆ 0 :: ascii " ;()," := by decide
    rw [hbody, List.cons_append]
    exact strcspn_stop (fun d hd hmem => c.name_plain d hd (hsubset hmem)) (by decide)
  unfold scriptTurns
  rw [if_pos (by omega : 0 < right), hspan]
  dsimp only
  rw [hdrop, if_neg (by omega : ¬ right - g = 0), hfunc, List.take_left, List.drop_left]
  rfl

/-- Behind a call the next blank is skipped; when there is none, the script is over. -/
theorem afterCall_run {front back post out : Bytes} {gap : Nat} {state : σ}
    (hfront : ∀ b ∈ front, b ∉ 0 :: ascii " ") (hgap : 0 < gap ∨ back = [])
    (hrun : ∀ g n right, right = g + back.length - 1 → right ≤ n → ∃ req',
      scriptTurns root n (List.replicate g 32 ++ (back ++ post)) right req = some req' ∧
        Wrote out 0 state req req') {n right : Nat}
    (hright : right = front.length + gap + back.length - 1) (hn : right ≤ n + 1) :
    ∃ req', afterCall root n (front ++ (List.replicate gap 32 ++ (back ++ post))) right req =
      some req' ∧ Wrote out 0 state req req' := by
  rw [afterCall]
  cases gap with
  | zero =>
    obtain rfl : back = [] := hgap.resolve_left (Nat.lt_irrefl 0)
    have hlate := strcspn_ge hfront (List.replicate 0 32 ++ ([] ++ post))
    rw [List.length_nil] at hright
    obtain ⟨req', hsome, hwrote⟩ := hrun 0 0 0 rfl (Nat.le_refl 0)
    rw [Nat.sub_eq_zero_of_le (by omega), scriptTurns_end]
    exact ⟨req', hsome, hwrote⟩
  | succ gap =>
    have hblank : strcspn (ascii " ") (front ++ (List.replicate (gap + 1) 32 ++ (back ++ post))) =
        front.length := by
      rw [List.replicate_succ, List.cons_append]
      exact strcspn_stop hfront (by decide)
    have hdrop : (front ++ (List.replicate (gap + 1) 32 ++ (back ++ post))).drop (front.length + 1) =
        List.replicate gap 32 ++ (back ++ post) := by
      rw [List.drop_append, List.drop_of_length_le (by omega), List.nil_append,
        Nat.add_sub_cancel_left, List.replicate_succ, List.cons_append, List.drop_succ_cons,
        List.drop_zero]
    rw [hblank, hdrop]
    exact hrun gap n _ (by omega) (by omega)

theorem callsText_cons (c : Call) (calls : List Call) (post : Bytes) :
    callsText (c :: calls) ++ post =
      c.name ++ (c.body ++ 59 :: (List.replicate c.gap 32 ++ (callsText calls ++ post))) := by
  simp [callsText, Call.text]

theorem callsText_length (c : Call) (calls : List Call) :
    (callsText (c :: calls)).length =
      c.name.length + (c.body.length + (1 + c.gap + (callsText calls).length)) := by
  simp only [callsText, Call.text, List.map_cons, List.flatten_cons, List.length_append,
    List.length_cons, List.length_replicate]
  omega

theorem Separated.tail {c : Call} {calls : List Call} (h : Separated (c :: calls)) :
    (0 < c.gap ∨ callsText calls = []) ∧ Separated calls := by
  cases calls with
  | nil => exact ⟨Or.inr rfl, trivial⟩
  | cons d calls => exact ⟨Or.inl h.1, h.2⟩

/-- Where only blanks are left, the loop ends. -/
theorem scriptTurns_blanks {g n right : Nat} {post : Bytes} (hpost : post.head? = some 37)
    (hright : right = g - 1) (hn : right ≤ n) (req : Request σ) :
    scriptTurns root n (List.replicate g 32 ++ post) right req = some req := by
  cases right with
  | zero => exact scriptTurns_end n _ req
  | succ right =>
    obtain ⟨n, rfl⟩ : ∃ k, n = k + 1 := ⟨n - 1, by omega⟩
    have hspan : strspn (ascii " ;(),") (List.replicate g 32 ++ post) = g := by
      rw [strspn_all, List.length_replicate]
      · intro d hd
        rw [List.eq_of_mem_replicate hd]
        decide
      · rw [hpost]
        rintro b ⟨⟩
        decide
    rw [scriptTurns, if_pos (Nat.succ_pos right), hspan]
    exact if_pos (by omega)

/-- The calls of a script are made in order. -/
theorem scriptTurns_calls {calls : List Call} (hsep : Separated calls)
    (hfits : ∀ c ∈ calls, c.Fits root) {post : Bytes} (hpost : post.head? = some 37)
    {g n right : Nat}
    (hright : right = g + (callsText calls).length - 1) (hn : right ≤ n) (h : Bounded req.conn) :
    ∃ req', scriptTurns root n (List.replicate g 32 ++ (callsText calls ++ post)) right req =
        some req' ∧
      Wrote (renderCalls root calls req.state).1 0 (renderCalls root calls req.state).2
        req req' := by
  induction calls generalizing g n right req with
  | nil =>
    have hnone : callsText [] = [] := rfl
    rw [hnone, List.length_nil, Nat.add_zero] at hright
    refine ⟨req, ?_, Wrote.refl h⟩
    rw [hnone, List.nil_append]
    exact scriptTurns_blanks hpost hright hn req
  | cons c calls ih =>
    obtain ⟨hgap, hsep⟩ := hsep.tail
    obtain ⟨⟨hopen, hplain⟩, hfits⟩ := List.forall_mem_cons.mp hfits
    have hpos : 0 < c.name.length := List.length_pos_of_ne_nil c.name_ne
    have hstop : ∀ b ∈ [(59 : UInt8)], b ∉ 0 :: ascii " " :=
      List.forall_mem_singleton.mpr (by decide)
    have hsubset : 0 :: ascii " " ⊆ 0 :: ascii " ;()," := by decide
    have hsubset' : 0 :: ascii " " ⊆ [(0 : UInt8), 32, 34, 59] := by decide
    rw [callsText_length] at hright
    obtain ⟨n, rfl⟩ : ∃ k, n = k + 1 := ⟨n - 1, by omega⟩
    rw [callsText_cons, scriptTurns_name hopen (by omega), renderCalls, renderCall]
    cases hfind : root.find? fun asp => asp.1 == c.name with
    | none =>
      have hfront : ∀ b ∈ c.name ++ (c.body ++ [59]), b ∉ 0 :: ascii " " := by
        simp only [List.forall_mem_append]
        refine ⟨fun b hb hmem => c.name_plain b hb (hsubset hmem), fun b hb hmem => ?_, hstop⟩
        rcases List.mem_cons.mp hmem with rfl | hmem
        · exact body_plain c 0 hb (by decide)
        · obtain rfl : b = 32 := List.mem_singleton.mp hmem
          exact hplain hfind hb
      have hleft :
          c.name ++ (c.body ++ 59 :: (List.replicate c.gap 32 ++ (callsText calls ++ post))) =
            c.name ++ (c.body ++ [59]) ++ (List.replicate c.gap 32 ++ (callsText calls ++ post)) := by
        simp
      dsimp only
      rw [hleft, List.nil_append]
      refine afterCall_run hfront hgap (fun g n right hright hn => ih hsep hfits hright hn h) ?_ ?_
      · simp only [List.length_append, List.length_singleton]
        omega
      · omega
    | some asp =>
      dsimp only
      rw [if_neg (by omega)]
      obtain ⟨req₁, hcall, hwrote⟩ := callAsp_wrote asp.2 c
        (List.replicate c.gap 32 ++ (callsText calls ++ post))
        (by omega : c.body.length ≤ right - g - c.name.length) h
      have hfront : ∀ b ∈ c.close ++ [59], b ∉ 0 :: ascii " " := by
        rw [List.forall_mem_append]
        exact ⟨fun b hb hmem => c.close_plain b hb (hsubset' hmem), hstop⟩
      have hleft : c.close ++ 59 :: (List.replicate c.gap 32 ++ (callsText calls ++ post)) =
          c.close ++ [59] ++ (List.replicate c.gap 32 ++ (callsText calls ++ post)) := by
        simp
      rw [hcall, Option.bind_some]
      dsimp only
      rw [hleft]
      have hbehind : right - g - c.name.length - (argsText c.args).length =
          (c.close ++ [59]).length + c.gap + (callsText calls).length - 1 := by
        rw [List.length_append, List.length_singleton]
        rw [Call.body, List.length_append] at hright
        omega
      obtain ⟨req', hrun, hwrote'⟩ := afterCall_run hfront hgap
        (fun g n right hright hn => ih hsep hfits hright hn hwrote.bounded) hbehind
        (by omega : _ ≤ n + 1)
      rw [hwrote.state] at hwrote'
      exact ⟨req', hrun, hwrote.trans hwrote'⟩

theorem handleScript_wrote {s : Script} (hfits : ∀ c ∈ s.calls, c.Fits root) {post : Bytes}
    (hpost : post.head? = some 37) (h : Bounded req.conn) :
    ∃ req', handleScript root (ascii "<%" ++ (s.text ++ post)) (2 + s.text.length) req = some req' ∧
      Wrote (renderCalls root s.calls req.state).1 0 (renderCalls root s.calls req.state).2
        req req' := by
  have hright : 2 + s.text.length - 3 = s.lead + (callsText s.calls).length - 1 := by
    rw [Script.text, List.length_append, List.length_replicate]
    omega
  have hdrop : (ascii "<%" ++ (s.text ++ post)).drop 2 =
      List.replicate s.lead 32 ++ (callsText s.calls ++ post) := by
    rw [Script.text, List.append_assoc]
    rfl
  rw [handleScript, hdrop]
  exact scriptTurns_calls s.separated hfits hpost hright (Nat.le_refl _) h

theorem partsText_cons (p : Bytes × Script) (parts : List (Bytes × Script)) (tail : Bytes) :
    partsText (p :: parts) tail =
      p.1 ++ (ascii "<%" ++ (p.2.text ++ (ascii "%>" ++ partsText parts tail))) := by
  simp [partsText]

/-- Behind the last part the rest of the page is copied. -/
theorem parsePage_tail {front tail : Bytes} {n : Nat} (hplain : ¬ ascii "<%" <:+: tail)
    (hpos : req.filepos = front.length) (hn : tail.length ≤ n) (h : Bounded req.conn) :
    ∃ req', parsePage root (front ++ tail) n front.length req = some req' ∧
      Wrote tail tail.length req.state req req' := by
  cases n with
  | zero =>
    obtain rfl : tail = [] := List.eq_nil_of_length_eq_zero (Nat.le_zero.mp hn)
    exact ⟨req, rfl, Wrote.refl h⟩
  | succ n =>
    rw [parsePage, List.length_append, Nat.add_sub_cancel_left, List.drop_left,
      cutFirst_eq_none_iff.mpr hplain]
    split
    · obtain rfl : tail = [] := List.eq_nil_of_length_eq_zero (by omega)
      exact ⟨req, rfl, Wrote.refl h⟩
    · obtain ⟨req₁, hcopy, hwrote⟩ := copyPart_wrote (front ++ tail) tail.length h
      rw [hpos, List.drop_left, List.take_length] at hwrote
      refine ⟨{ req₁ with filepos := req₁.filepos + tail.length }, ?_, ?_⟩
      · rw [hcopy]
        rfl
      · have hread := hwrote.read tail.length
        rwa [Nat.zero_add] at hread

/-- One turn copies a text and runs the script behind it. -/
theorem parsePage_part {data front text rest : Bytes} {s : Script}
    (hdata : data = front ++ (text ++ (ascii "<%" ++ (s.text ++ (ascii "%>" ++ rest)))))
    (hopen : ¬ ascii "<%" <:+: text) (hend : ¬ ascii "%>" <:+: ascii "<%" ++ s.text)
    (hfits : ∀ c ∈ s.calls, c.Fits root) (hpos : req.filepos = front.length)
    (h : Bounded req.conn) :
    ∃ req', (∀ n, parsePage root data (n + 1) front.length req =
        parsePage root data n (front.length + (text.length + (2 + s.text.length + 2))) req') ∧
      Wrote (text ++ (renderCalls root s.calls req.state).1)
        (text.length + (2 + s.text.length + 2)) (renderCalls root s.calls req.state).2 req req' := by
  have hdrop : data.drop front.length =
      text ++ (ascii "<%" ++ (s.text ++ (ascii "%>" ++ rest))) := by
    rw [hdata, List.drop_left]
  have hleft : data.drop (front.length + text.length) =
      ascii "<%" ++ (s.text ++ (ascii "%>" ++ rest)) := by
    rw [← List.drop_drop, hdrop, List.drop_left]
  have hmore : ¬ data.length ≤ front.length := by
    rw [hdata]
    simp only [List.length_append]
    have hmark : (ascii "<%").length = 2 := rfl
    omega
  have hcut₁ : cutFirst (ascii "<%") (data.drop front.length) =
      some (text, s.text ++ (ascii "%>" ++ rest)) := by
    rw [hdrop]
    exact cutFirst_pair (by decide) hopen _
  have hcut₂ : cutFirst (ascii "%>") (ascii "<%" ++ (s.text ++ (ascii "%>" ++ rest))) =
      some (ascii "<%" ++ s.text, rest) := by
    rw [← List.append_assoc]
    exact cutFirst_pair (by decide) hend _
  have hscript : (ascii "<%" ++ s.text).length = 2 + s.text.length := List.length_append
  obtain ⟨req₁, hcopy, hwrote₁⟩ := copyPart_wrote data text.length h
  rw [hpos, hdrop, List.take_left] at hwrote₁
  have hread := hwrote₁.read (text.length + (2 + s.text.length + 2))
  obtain ⟨req₂, hrun, hwrote₂⟩ := handleScript_wrote hfits
    (rfl : (ascii "%>" ++ rest).head? = some 37) hread.bounded
  -- the way of `filepos` and of `last_right` to the next part
  have hmove : text.length + (front.length + text.length + (2 + s.text.length) + 2) -
      (front.length + text.length) = text.length + (2 + s.text.length + 2) := by omega
  have hlast : front.length + text.length + (2 + s.text.length) + 2 =
      front.length + (text.length + (2 + s.text.length + 2)) := by omega
  refine ⟨req₂, fun n => ?_, ?_⟩
  · rw [parsePage, if_neg hmore, hcut₁]
    dsimp only
    rw [hcut₂]
    dsimp only
    rw [hcopy, Option.bind_some, hscript, hmove, hleft, hrun, Option.bind_some, hlast]
  · have hwhole := hread.trans hwrote₂
    rwa [hread.state, Nat.zero_add, Nat.add_zero] at hwhole

/-- A page is read on from a place between its parts. -/
theorem parsePage_parts {parts : List (Bytes × Script)} {front tail : Bytes} {n : Nat}
    (hopens : ∀ p ∈ parts, ¬ ascii "<%" <:+: p.1)
    (hends : ∀ p ∈ parts, ¬ ascii "%>" <:+: ascii "<%" ++ p.2.text)
    (hplain : ¬ ascii "<%" <:+: tail) (hfits : ∀ p ∈ parts, ∀ c ∈ p.2.calls, c.Fits root)
    (hpos : req.filepos = front.length) (hn : (partsText parts tail).length ≤ n)
    (h : Bounded req.conn) :
    ∃ req', parsePage root (front ++ partsText parts tail) n front.length req = some req' ∧
      Wrote ((renderParts root parts req.state).1 ++ tail) (partsText parts tail).length
        (renderParts root parts req.state).2 req req' := by
  induction parts generalizing front n req with
  | nil => exact parsePage_tail hplain hpos hn h
  | cons p parts ih =>
    obtain ⟨hopen, hopens⟩ := List.forall_mem_cons.mp hopens
    obtain ⟨hend, hends⟩ := List.forall_mem_cons.mp hends
    obtain ⟨hfit, hfits⟩ := List.forall_mem_cons.mp hfits
    have htext := partsText_cons p parts tail
    have hpart : (p.1 ++ (ascii "<%" ++ (p.2.text ++ ascii "%>"))).length =
        p.1.length + (2 + p.2.text.length + 2) := by
      have hmark : (ascii "<%").length = 2 ∧ (ascii "%>").length = 2 := by decide
      simp only [List.length_append, hmark.1, hmark.2]
      omega
    have hsplit : partsText (p :: parts) tail =
        p.1 ++ (ascii "<%" ++ (p.2.text ++ ascii "%>")) ++ partsText parts tail := by
      rw [htext]
      simp only [List.append_assoc]
    have hlen : (partsText (p :: parts) tail).length =
        p.1.length + (2 + p.2.text.length + 2) + (partsText parts tail).length := by
      rw [hsplit, List.length_append, hpart]
    obtain ⟨n, rfl⟩ : ∃ k, n = k + 1 := ⟨n - 1, by omega⟩
    obtain ⟨req₁, hturn, hwrote₁⟩ :=
      parsePage_part (congrArg (front ++ ·) htext) hopen hend hfit hpos h
    have hpos₁ : req₁.filepos =
        (front ++ (p.1 ++ (ascii "<%" ++ (p.2.text ++ ascii "%>")))).length := by
      rw [hwrote₁.filepos, hpos, List.length_append, hpart]
    obtain ⟨req₂, hrest, hwrote₂⟩ := ih hopens hends hfits hpos₁ (by omega : _ ≤ n) hwrote₁.bounded
    refine ⟨req₂, ?_, ?_⟩
    · rw [hturn, ← hrest, hsplit, List.length_append, hpart, ← List.append_assoc front]
    · have hwhole := hwrote₁.trans hwrote₂
      rw [hwrote₁.state] at hwhole
      rw [hlen, renderParts]
      dsimp only
      simpa only [List.append_assoc] using hwhole

/-- A page is sent as it is, with what its calls write in their places, and the request has read
the whole file. -/
theorem page_rendered (root : AspList σ) (p : Page)
    (hfits : ∀ part ∈ p.parts, ∀ c ∈ part.2.calls, c.Fits root) (conn : Conn) (h : Bounded conn)
    (state : σ) :
    ∃ m, initGet2 root p.text conn state = some
      { conn := { conn with buffer := conn.buffer ++ (render root p state).1, maxBufferSize := m }
        filepos := p.text.length
        closing := true
        state := (render root p state).2 } := by
  have hparsed : ∃ req', parsePage root ([] ++ p.text) p.text.length 0 ⟨conn, 0, false, state⟩ =
      some req' ∧ Wrote (render root p state).1 p.text.length (render root p state).2
        ⟨conn, 0, false, state⟩ req' :=
    parsePage_parts p.opens p.ends p.plain hfits rfl (Nat.le_refl _) h
  obtain ⟨req', hparse, hwrote⟩ := hparsed
  rw [List.nil_append] at hparse
  have hfilepos : req'.filepos = p.text.length := hwrote.filepos.trans (Nat.zero_add _)
  have hconn := hwrote.conn
  dsimp only at hconn
  refine ⟨req'.conn.maxBufferSize, ?_⟩
  rw [initGet2, hparse, Option.map_some, hfilepos, hwrote.state, ← hconn, decide_eq_true rfl]

theorem plain_of_all {s set : Bytes} (h : s.all (fun b => !set.contains b) = true) :
    ∀ b ∈ s, b ∉ set := by
  intro b hb hset
  have hnot := List.all_eq_true.mp h b hb
  rw [List.contains_iff_mem.mpr hset] at hnot
  cases hnot

/-- `hello("a", "b"); other();` with a function for the first name, which counts its calls. -/
def sampleRoot : AspList Nat :=
  boaASPDefine (ascii "hello") (fun argv count => (argv ++ [ascii "!"], count + 1)) []

def sampleCalls : List Call :=
  [{ name := ascii "hello", args := [(ascii "(", ascii "a"), (ascii ", ", ascii "b")]
     close := ascii ")", gap := 1, name_ne := by decide, name_plain := plain_of_all (by decide)
     args_plain := List.forall_mem_cons.mpr
       ⟨⟨plain_of_all (by decide), plain_of_all (by decide)⟩, List.forall_mem_singleton.mpr
         ⟨plain_of_all (by decide), plain_of_all (by decide)⟩⟩
     close_plain := plain_of_all (by decide), few := by decide },
   { name := ascii "other", args := [], close := ascii "()", gap := 0
     name_ne := by decide, name_plain := plain_of_all (by decide)
     args_plain := fun _ ha => absurd ha List.not_mem_nil
     close_plain := plain_of_all (by decide), few := by decide }]

def samplePage : Page where
  parts := [(ascii "<p>", ⟨1, sampleCalls, ⟨by decide, trivial⟩⟩)]
  tail := ascii "</p>"
  opens := by decide
  ends := by decide
  plain := by decide

theorem page_rendered_sample :
    ∃ m, initGet2 sampleRoot samplePage.text (newRequest 0 0) 0 = some
      { conn := { newRequest 0 0 with
          buffer := (newRequest 0 0).buffer ++ (render sampleRoot samplePage 0).1
          maxBufferSize := m }
        filepos := samplePage.text.length
        closing := true
        state := (render sampleRoot samplePage 0).2 } := by
  refine page_rendered sampleRoot samplePage ?_ (newRequest 0 0) ?_ 0
  · intro part hpart c hc
    obtain rfl := List.mem_singleton.mp hpart
    rcases List.mem_pair.mp hc with rfl | rfl
    · exact ⟨rfl, by decide⟩
    · exact ⟨rfl, by decide⟩
  · exact ⟨Nat.le_refl _, Nat.zero_le _, fun hstart => absurd rfl hstart⟩

/-- The page shows what is written in the place of the calls. -/
example : render sampleRoot samplePage 0 = (ascii "<p>ab!</p>", 1) := by decide

end AspPages
