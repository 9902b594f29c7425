import BoaGateway.ReadHeader
import BoaGateway.RequestRuns

/-!
# The body of a POST request

The functions `read_body` and `write_body`, which fill one buffer from the socket and empty
it into a temporary file, started by the copy that `read_header` makes of the bytes that came
with the header. A step takes what the `read` or `write` of this call gives; a result that
they cannot give has no step.
-/

namespace PostBody

open ByteBlocks MibValue ReadHeader RequestRuns

def bufferSize : Nat := clientStreamSize

inductive BodyStatus where
  | bodyRead
  | bodyWrite
  | close
  deriving DecidableEq

/-- A request behind its header. The pointer `header_line` is at `lineAt` in the buffer, and
`data` are the bytes from there to `header_end`; `input` are those still on the socket. -/
structure Upload where
  status : BodyStatus
  cgiClose : Bool
  lineAt : Nat
  data : Bytes
  filesize : Nat
  filepos : Nat
  file : Bytes
  input : Bytes

inductive Result where
  | blocked
  | amount (k : Nat)
  | eof
  | failed
  deriving DecidableEq

/-- What a step is seen to do; `filled` are bytes that are stored in the buffer. -/
inductive Output where
  | nothing
  | filled (offset count : Nat)
  | initForm (file : Bytes)
  | dropped
  deriving DecidableEq

def bytesToRead (u : Upload) : Nat :=
  if u.filesize = 0 then bufferSize - u.data.length
  else min (bufferSize - u.data.length) (u.filesize - u.filepos)

/-- `read_body`. -/
def readBody (u : Upload) (r : Result) : Option (Upload × Output) :=
  if bytesToRead u = 0 then some ({ u with status := .bodyWrite }, .nothing)
  else
    match r with
    | .blocked =>
      if u.filesize = 0 then some ({ u with status := .bodyWrite }, .nothing)
      else some (u, .nothing)
    | .amount k =>
      if 1 ≤ k ∧ k ≤ bytesToRead u ∧ k ≤ u.input.length then
        some ({ u with
          status := if k = bytesToRead u then .bodyWrite else .bodyRead
          data := u.data ++ u.input.take k
          filepos := u.filepos + k
          input := u.input.drop k }, .filled (u.lineAt + u.data.length) k)
      else none
    -- the peer closes behind its last byte
    | .eof =>
      if u.input = [] then
        some ({ u with status := .bodyWrite, cgiClose := true }, .nothing)
      else none
    | .failed => some ({ u with status := .close }, .dropped)

/-- `write_body`; the limit is `g_max_upload_size`. -/
def writeBody (maxUploadSize : Nat) (u : Upload) (r : Result) : Option (Upload × Output) :=
  if u.data = [] then
    if u.cgiClose = true ∨ u.filesize ≤ u.filepos then
      some ({ u with status := .close, lineAt := 0 }, .initForm u.file)
    else some ({ u with status := .bodyRead, lineAt := 0 }, .nothing)
  else if u.filepos ≤ maxUploadSize then
    match r with
    | .blocked => some (u, .nothing)
    | .amount k =>
      if 1 ≤ k ∧ k ≤ u.data.length then
        some ({ u with
          lineAt := u.lineAt + k
          data := u.data.drop k
          file := u.file ++ u.data.take k }, .nothing)
      else none
    | .eof => none
    | .failed => some ({ u with status := .close }, .dropped)
  else some ({ u with lineAt := u.lineAt + u.data.length, data := [] }, .nothing)

/-- The handler that `process_requests` calls. -/
def step (maxUploadSize : Nat) (u : Upload) (r : Result) : Option (Upload × Output) :=
  match u.status with
  | .bodyRead => readBody u r
  | .bodyWrite => writeBody maxUploadSize u r
  | .close => some (u, .nothing)

/-- The end of `read_header` for a POST request: the bytes behind the header in its piece are
copied to the buffer. -/
def bodyStart (values : Values) (unread input : Bytes) : Upload × Output :=
  let filesize := (values.contentLength.elim 0 atoi).toNat
  ({ status := .bodyRead
     cgiClose := decide (filesize ≤ unread.length)
     lineAt := 0
     data := unread
     filesize := filesize
     filepos := unread.length
     file := []
     input := input }, .filled 0 unread.length)

/-- The files that `init_form` is called with. -/
def forms (os : List Output) : List Bytes :=
  os.filterMap fun o => match o with
    | .initForm file => some file
    | _ => none

/-- What is stored lies in the buffer. -/
def Output.Fits : Output → Prop
  | .filled offset count => offset + count ≤ bufferSize
  | _ => True

/-- The bytes of a stream of which the first `total` make the body: those in the file, in the
buffer and on the socket. -/
structure Uploading (stream : Bytes) (total : Nat) (u : Upload) : Prop where
  bytes : u.file ++ u.data ++ u.input = stream
  filepos : u.filepos = u.file.length + u.data.length
  filesize_pos : 0 < u.filesize
  enough : u.filesize ≤ total ∧ total ≤ stream.length
  more : u.filepos < u.filesize → total = u.filesize
  bound : u.filepos ≤ total
  ended : u.cgiClose = true ∨ u.filesize ≤ u.filepos → u.filepos = total
  space : u.lineAt + u.data.length ≤ bufferSize
  reading : u.status = .bodyRead →
    u.lineAt = 0 ∧ (u.data = [] → u.cgiClose = false ∧ u.filepos < u.filesize)

theorem Uploading.input_length {stream : Bytes} {total : Nat} {u : Upload}
    (h : Uploading stream total u) : u.filepos + u.input.length = stream.length := by
  have hlen := congrArg List.length h.bytes
  simp only [List.length_append] at hlen
  rw [h.filepos]
  omega

/-- The steps of a request that is neither refused nor without a length. -/
inductive Move : Upload → Result → Upload → Output → Prop where
  | full {u : Upload} (r : Result) (hstatus : u.status = .bodyRead) (hno : bytesToRead u = 0) :
      Move u r { u with status := .bodyWrite } .nothing
  | waits {u : Upload} (hopen : u.status ≠ .close) : Move u .blocked u .nothing
  | reads {u : Upload} (k : Nat) (hstatus : u.status = .bodyRead) (hpos : 1 ≤ k)
      (hread : k ≤ bytesToRead u) (hinput : k ≤ u.input.length) :
      Move u (.amount k)
        { u with
          status := if k = bytesToRead u then .bodyWrite else .bodyRead
          data := u.data ++ u.input.take k
          filepos := u.filepos + k
          input := u.input.drop k } (.filled (u.lineAt + u.data.length) k)
  | drops {u : Upload} (hopen : u.status ≠ .close) :
      Move u .failed { u with status := .close } .dropped
  | form {u : Upload} (r : Result) (hstatus : u.status = .bodyWrite) (hdata : u.data = [])
      (hend : u.cgiClose = true ∨ u.filesize ≤ u.filepos) :
      Move u r { u with status := .close, lineAt := 0 } (.initForm u.file)
  | again {u : Upload} (r : Result) (hstatus : u.status = .bodyWrite) (hdata : u.data = [])
      (hclose : u.cgiClose = false) (hmore : u.filepos < u.filesize) :
      Move u r { u with status := .bodyRead, lineAt := 0 } .nothing
  | writes {u : Upload} (k : Nat) (hstatus : u.status = .bodyWrite) (hpos : 1 ≤ k)
      (hdata : k ≤ u.data.length) :
      Move u (.amount k)
        { u with
          lineAt := u.lineAt + k
          data := u.data.drop k
          file := u.file ++ u.data.take k } .nothing

/-- As long as there is something to read, the socket has it. -/
theorem Uploading.input_of_read {stream : Bytes} {total : Nat} {u : Upload}
    (h : Uploading stream total u) (hread : bytesToRead u ≠ 0) : u.input ≠ [] := by
  intro hinput
  have hlen := h.input_length
  have henough := h.enough
  rw [bytesToRead, if_neg (Nat.ne_of_gt h.filesize_pos)] at hread
  rw [hinput, List.length_nil] at hlen
  omega

theorem readBody_moves {stream : Bytes} {total : Nat} {u u' : Upload} {r : Result} {o : Output}
    (h : Uploading stream total u) (hstatus : u.status = .bodyRead)
    (hstep : readBody u r = some (u', o)) : Move u r u' o := by
  have hsize : u.filesize ≠ 0 := Nat.ne_of_gt h.filesize_pos
  have hopen : u.status ≠ .close := by simp [hstatus]
  unfold readBody at hstep
  by_cases hno : bytesToRead u = 0
  · rw [if_pos hno] at hstep
    cases hstep
    exact .full r hstatus hno
  · rw [if_neg hno] at hstep
    cases r with
    | blocked =>
      simp only [if_neg hsize] at hstep
      cases hstep
      exact .waits hopen
    | amount k =>
      simp only at hstep
      split at hstep
      · rename_i hk
        cases hstep
        exact .reads k hstatus hk.1 hk.2.1 hk.2.2
      · cases hstep
    | eof =>
      simp only [if_neg (h.input_of_read hno)] at hstep
      cases hstep
    | failed =>
      cases hstep
      exact .drops hopen

theorem writeBody_moves {stream : Bytes} {total maxUploadSize : Nat} {u u' : Upload} {r : Result}
    {o : Output} (h : Uploading stream total u) (hmax : total ≤ maxUploadSize)
    (hstatus : u.status = .bodyWrite) (hstep : writeBody maxUploadSize u r = some (u', o)) :
    Move u r u' o := by
  have hopen : u.status ≠ .close := by simp [hstatus]
  unfold writeBody at hstep
  by_cases hdata : u.data = []
  · rw [if_pos hdata] at hstep
    split at hstep
    · rename_i hend
      cases hstep
      exact .form r hstatus hdata hend
    · rename_i hend
      rw [not_or, Bool.not_eq_true, Nat.not_le] at hend
      cases hstep
      exact .again r hstatus hdata hend.1 hend.2
  · rw [if_neg hdata, if_pos (Nat.le_trans h.bound hmax)] at hstep
    cases r with
    | blocked =>
      cases hstep
      exact .waits hopen
    | amount k =>
      simp only at hstep
      split at hstep
      · rename_i hk
        cases hstep
        exact .writes k hstatus hk.1 hk.2
      · cases hstep
    | eof => cases hstep
    | failed =>
      cases hstep
      exact .drops hopen

theorem step_moves {stream : Bytes} {total maxUploadSize : Nat} {u u' : Upload} {r : Result}
    {o : Output} (h : Uploading stream total u) (hmax : total ≤ maxUploadSize)
    (hopen : u.status ≠ .close) (hstep : step maxUploadSize u r = some (u', o)) :
    Move u r u' o := by
  unfold step at hstep
  cases hstatus : u.status with
  | bodyRead =>
    simp only [hstatus] at hstep
    exact readBody_moves h hstatus hstep
  | bodyWrite =>
    simp only [hstatus] at hstep
    exact writeBody_moves h hmax hstatus hstep
  | close => exact absurd hstatus hopen

theorem bytesToRead_le {stream : Bytes} {total : Nat} {u : Upload}
    (h : Uploading stream total u) :
    u.data.length + bytesToRead u ≤ bufferSize ∧
      (bytesToRead u ≠ 0 → u.filepos + bytesToRead u ≤ u.filesize) := by
  have hspace := h.space
  rw [bytesToRead, if_neg (Nat.ne_of_gt h.filesize_pos)]
  constructor
  · omega
  · intro hread
    omega

theorem take_input (u : Upload) {k : Nat} (hpos : 1 ≤ k) (hinput : k ≤ u.input.length) :
    (u.input.take k).length = k ∧ u.data ++ u.input.take k ≠ [] := by
  have htake : (u.input.take k).length = k := List.length_take_of_le hinput
  constructor
  · exact htake
  · intro hnil
    rw [(List.append_eq_nil_iff.mp hnil).2] at htake
    exact absurd htake (Nat.ne_of_lt hpos)

theorem Uploading.move {stream : Bytes} {total : Nat} {u u' : Upload} {r : Result} {o : Output}
    (h : Uploading stream total u) (hmove : Move u r u' o) : Uploading stream total u' := by
  cases hmove with
  | full r hstatus hno => exact { h with reading := fun hread => by cases hread }
  | waits hopen => exact h
  | reads k hstatus hpos hread hinput =>
    obtain ⟨hfit, hleft⟩ := bytesToRead_le h
    have hleft := hleft (by omega)
    have htotal := h.more (by omega)
    have hclose : u.cgiClose = false := by
      by_contra hclose
      have hfilepos := h.ended (Or.inl (Bool.not_eq_false _ ▸ hclose))
      omega
    obtain ⟨htake, hnonempty⟩ := take_input u hpos hinput
    exact {
      bytes := by
        rw [← List.append_assoc, List.append_assoc (u.file ++ u.data), List.take_append_drop]
        exact h.bytes
      filepos := by
        have hfilepos := h.filepos
        simp only [List.length_append, htake]
        omega
      filesize_pos := h.filesize_pos
      enough := h.enough
      more := fun _ => htotal
      bound := by
        simp only
        omega
      ended := by
        rintro (hend | hend)
        · rw [hclose] at hend
          cases hend
        · simp only at hend ⊢
          omega
      space := by
        have hzero := (h.reading hstatus).1
        simp only [List.length_append, htake]
        omega
      reading := fun _ => ⟨(h.reading hstatus).1, fun hnil => absurd hnil hnonempty⟩ }
  | drops hopen => exact { h with reading := fun hread => by cases hread }
  | form r hstatus hdata hend =>
    have hspace := h.space
    exact { h with
      space := by
        simp only
        omega
      reading := fun hread => by cases hread }
  | again r hstatus hdata hclose hmore =>
    have hspace := h.space
    exact { h with
      space := by
        simp only
        omega
      reading := fun _ => ⟨rfl, fun _ => ⟨hclose, hmore⟩⟩ }
  | writes k hstatus hpos hdata =>
    have hspace := h.space
    exact { h with
      bytes := by
        rw [List.append_assoc u.file, List.take_append_drop]
        exact h.bytes
      filepos := by
        have hfilepos := h.filepos
        simp only [List.length_append, List.length_take, List.length_drop]
        omega
      space := by
        simp only [List.length_drop]
        omega
      reading := fun hread => by
        rw [hstatus] at hread
        cases hread }

/-- What a step writes to the buffer fits, and a handler gets the whole body. -/
theorem Uploading.output {stream : Bytes} {total : Nat} {u u' : Upload} {r : Result} {o : Output}
    (h : Uploading stream total u) (hmove : Move u r u' o) :
    o.Fits ∧ ∀ file, o = .initForm file → file = stream.take total := by
  cases hmove with
  | reads k hstatus hpos hread hinput =>
    have hzero := (h.reading hstatus).1
    have hfit := (bytesToRead_le h).1
    constructor
    · rw [Output.Fits]
      omega
    · intro file hfile
      cases hfile
  | form r hstatus hdata hend =>
    have hfilepos := h.filepos
    have hbytes := h.bytes
    rw [hdata, List.length_nil, h.ended hend] at hfilepos
    rw [hdata, List.append_nil] at hbytes
    constructor
    · trivial
    · intro file hfile
      cases hfile
      rw [← hbytes, hfilepos, Nat.add_zero, List.take_left]
  | _ =>
    constructor
    · trivial
    · intro file hfile
      cases hfile

/-- What is still to be done, in steps. -/
def pending (total : Nat) (u : Upload) : Nat :=
  6 * (total - u.filepos) + 3 * u.data.length +
    match u.status with
    | .bodyRead => 1
    | .bodyWrite => if u.data = [] then 2 else 0
    | .close => 0

theorem pending_move {stream : Bytes} {total : Nat} {u u' : Upload} {r : Result} {o : Output}
    (h : Uploading stream total u) (hmove : Move u r u' o) (hr : r ≠ .failed)
    (hopen : u'.status ≠ .close) :
    pending total u' + (if r = .blocked then 0 else 1) ≤ pending total u := by
  cases hmove with
  | full r hstatus hno =>
    have hdata : u.data ≠ [] := by
      intro hdata
      have hmore := (h.reading hstatus).2 hdata
      have hsize := h.filesize_pos
      rw [bytesToRead, if_neg (Nat.ne_of_gt hsize), hdata, List.length_nil] at hno
      have hbuffer : 0 < bufferSize := by decide
      omega
    simp only [pending, hstatus, if_neg hdata]
    split <;> omega
  | waits hopen => simp
  | reads k hstatus hpos hread hinput =>
    have hleft := (bytesToRead_le h).2 (by omega)
    have henough := h.enough
    obtain ⟨htake, hnonempty⟩ := take_input u hpos hinput
    simp only [pending, hstatus, List.length_append, htake, reduceCtorEq, if_false]
    split
    · omega
    · rw [if_neg hnonempty]
      omega
    · omega
  | drops hopen => exact absurd rfl hr
  | form r hstatus hdata hend => exact absurd rfl hopen
  | again r hstatus hdata hclose hmore =>
    simp only [pending, hstatus, hdata, if_true, List.length_nil]
    split <;> omega
  | writes k hstatus hpos hdata =>
    have hnonempty : u.data ≠ [] := by
      intro hnil
      rw [hnil, List.length_nil] at hdata
      omega
    simp only [pending, hstatus, if_neg hnonempty, List.length_drop, reduceCtorEq, if_false]
    split <;> omega

theorem step_closed {maxUploadSize : Nat} {u : Upload} (hclose : u.status = .close) (r : Result) :
    step maxUploadSize u r = some (u, .nothing) := by
  unfold step
  rw [hclose]

theorem run_closed {maxUploadSize : Nat} {u u' : Upload} {rs : List Result} {os : List Output}
    (hclose : u.status = .close) (hrun : run (step maxUploadSize) u rs = some (u', os)) :
    ∀ o ∈ os, o = .nothing := by
  induction rs generalizing os with
  | nil =>
    cases hrun
    intro o ho
    cases ho
  | cons r rs ih =>
    obtain ⟨t, o, os', hstep, hrun', rfl⟩ := run_cons_iff.mp hrun
    rw [step_closed hclose r] at hstep
    cases hstep
    exact List.forall_mem_cons.mpr ⟨rfl, ih hrun'⟩

theorem forms_nothing {os : List Output} (h : ∀ o ∈ os, o = .nothing) : forms os = [] := by
  apply List.filterMap_eq_nil_iff.mpr
  intro o ho
  rw [h o ho]

theorem fits_nothing {os : List Output} (h : ∀ o ∈ os, o = .nothing) : ∀ o ∈ os, o.Fits := by
  intro o ho
  rw [h o ho]
  trivial

theorem closed_of_form {u u' : Upload} {r : Result} {file : Bytes}
    (hmove : Move u r u' (.initForm file)) : u'.status = .close := by
  cases hmove
  rfl

/-- Only a failure closes a request whose handler was not called. -/
theorem form_of_closed {u u' : Upload} {r : Result} {o : Output} (hmove : Move u r u' o)
    (hr : r ≠ .failed) (hclose : u'.status = .close) : ∃ file, o = .initForm file := by
  cases hmove with
  | waits hopen => exact absurd hclose hopen
  | reads k =>
    simp only at hclose
    split at hclose <;> cases hclose
  | drops => exact absurd rfl hr
  | form => exact ⟨_, rfl⟩
  | writes k hstatus =>
    rw [hstatus] at hclose
    cases hclose
  | _ => cases hclose

theorem forms_cons (o : Output) (os : List Output) : forms (o :: os) = forms [o] ++ forms os :=
  List.filterMap_append (l := [o])

theorem forms_of_no_form {o : Output} (h : ∀ file, o ≠ .initForm file) : forms [o] = [] := by
  cases o with
  | initForm file => exact absurd rfl (h file)
  | _ => rfl

theorem Uploading.run {stream : Bytes} {total maxUploadSize : Nat} {u u' : Upload}
    {rs : List Result} {os : List Output} (h : Uploading stream total u)
    (hmax : total ≤ maxUploadSize) (hopen : u.status ≠ .close)
    (hrun : RequestRuns.run (step maxUploadSize) u rs = some (u', os)) :
    (∀ o ∈ os, o.Fits) ∧
      (forms os = [] ∨ forms os = [stream.take total]) ∧
      (.failed ∉ rs → pending total u < rs.countP (fun r => r ≠ .blocked) →
        forms os = [stream.take total]) := by
  induction rs generalizing u os with
  | nil =>
    cases hrun
    refine ⟨?_, Or.inl rfl, ?_⟩
    · intro o ho
      cases ho
    · intro _ hcount
      exact absurd hcount (Nat.not_lt_zero _)
  | cons r rs ih =>
    obtain ⟨t, o, os', hstep, hrun', rfl⟩ := run_cons_iff.mp hrun
    have hmove := step_moves h hmax hopen hstep
    obtain ⟨hfits, hform⟩ := h.output hmove
    by_cases hclose : t.status = .close
    · have hrest := run_closed hclose hrun'
      rw [forms_cons, forms_nothing hrest, List.append_nil]
      refine ⟨List.forall_mem_cons.mpr ⟨hfits, fits_nothing hrest⟩, ?_, ?_⟩
      · by_cases hsome : ∃ file, o = .initForm file
        · obtain ⟨file, rfl⟩ := hsome
          rw [hform file rfl]
          exact Or.inr rfl
        · exact Or.inl (forms_of_no_form (not_exists.mp hsome))
      · intro hfailed _
        have hr : r ≠ .failed := fun hr => hfailed (hr ▸ List.mem_cons_self)
        obtain ⟨file, rfl⟩ := form_of_closed hmove hr hclose
        rw [hform file rfl]
        rfl
    · have hnone : ∀ file, o ≠ .initForm file := by
        rintro file rfl
        exact hclose (closed_of_form hmove)
      obtain ⟨hfits', hforms, hends⟩ := ih (h.move hmove) hclose hrun'
      rw [forms_cons, forms_of_no_form hnone, List.nil_append]
      refine ⟨List.forall_mem_cons.mpr ⟨hfits, hfits'⟩, hforms, ?_⟩
      intro hfailed hcount
      rw [List.mem_cons, not_or] at hfailed
      have hr : r ≠ .failed := fun hr => hfailed.1 hr.symm
      have hpending := pending_move h hmove hr hclose
      apply hends hfailed.2
      by_cases hblocked : r = .blocked
      · rw [List.countP_cons_of_neg (by simp [hblocked])] at hcount
        rw [if_pos hblocked] at hpending
        omega
      · rw [List.countP_cons_of_pos (by simp [hblocked])] at hcount
        rw [if_neg hblocked] at hpending
        omega

/-- A request is never stuck. -/
theorem Uploading.goes_on {stream : Bytes} {total : Nat} {u : Upload}
    (h : Uploading stream total u) (maxUploadSize : Nat) :
    (step maxUploadSize u (.amount 1)).isSome := by
  unfold step
  cases hstatus : u.status with
  | bodyRead =>
    simp only [readBody]
    by_cases hno : bytesToRead u = 0
    · rw [if_pos hno]
      rfl
    · have hinput := List.length_pos_iff.mpr (h.input_of_read hno)
      rw [if_neg hno, if_pos ⟨Nat.le_refl 1, Nat.one_le_iff_ne_zero.mpr hno, hinput⟩]
      rfl
  | bodyWrite =>
    simp only [writeBody]
    by_cases hdata : u.data = []
    · rw [if_pos hdata]
      split <;> rfl
    · have hone : 1 ≤ 1 ∧ 1 ≤ u.data.length := ⟨Nat.le_refl 1, List.length_pos_iff.mpr hdata⟩
      rw [if_neg hdata, if_pos hone]
      split <;> rfl
  | close => rfl

theorem Uploading.step {stream : Bytes} {total maxUploadSize : Nat} {u u' : Upload} {r : Result}
    {o : Output} (h : Uploading stream total u) (hmax : total ≤ maxUploadSize)
    (hstep : PostBody.step maxUploadSize u r = some (u', o)) : Uploading stream total u' := by
  by_cases hclose : u.status = .close
  · rw [step_closed hclose r] at hstep
    cases hstep
    exact h
  · exact h.move (step_moves h hmax hclose hstep)

/-- The copy that ends the header starts a body of the bytes that it copies, or of as many
as the length says. -/
theorem bodyStart_uploading {values : Values} {text unread input : Bytes} {n : Nat}
    (htext : values.contentLength = some text) (hn : atoi text = n) (hpos : 0 < n)
    (hpiece : unread.length ≤ clientStreamSize) (hinput : n ≤ (unread ++ input).length) :
    Uploading (unread ++ input) (max n unread.length) (bodyStart values unread input).1 := by
  have hfilesize : (bodyStart values unread input).1.filesize = n := by
    simp [bodyStart, htext, hn]
  have hclose : (bodyStart values unread input).1.cgiClose = decide (n ≤ unread.length) := by
    rw [← hfilesize]
    rfl
  have hfilepos : (bodyStart values unread input).1.filepos = unread.length := rfl
  exact {
    bytes := rfl
    filepos := (Nat.zero_add unread.length).symm
    filesize_pos := by rw [hfilesize]; exact hpos
    enough := by
      rw [hfilesize]
      refine ⟨Nat.le_max_left n unread.length, Nat.max_le.mpr ⟨hinput, ?_⟩⟩
      rw [List.length_append]
      exact Nat.le_add_right unread.length input.length
    more := fun hmore => by
      rw [hfilesize] at hmore ⊢
      exact Nat.max_eq_left (Nat.le_of_lt hmore)
    bound := Nat.le_max_right n unread.length
    ended := fun hend => by
      rw [hclose, hfilesize, hfilepos, decide_eq_true_eq, or_self_iff] at hend
      exact (Nat.max_eq_right hend).symm
    space := by
      rw [bufferSize]
      exact (Nat.zero_add unread.length).symm ▸ hpiece
    reading := fun _ => by
      refine ⟨rfl, fun hdata => ?_⟩
      have hunread : unread.length = 0 := List.length_eq_zero_iff.mpr hdata
      rw [hclose, hfilesize, hfilepos, hunread]
      exact ⟨decide_eq_false (Nat.not_le_of_gt hpos), hpos⟩ }

theorem bodyStart_fits (values : Values) {unread : Bytes} (input : Bytes)
    (hpiece : unread.length ≤ clientStreamSize) : (bodyStart values unread input).2.Fits := by
  rw [bodyStart, Output.Fits, Nat.zero_add]
  exact hpiece

theorem pending_bodyStart (values : Values) (unread input : Bytes) {total : Nat}
    (h : unread.length ≤ total) :
    pending total (bodyStart values unread input).1 ≤ 6 * total + 1 := by
  simp only [pending, bodyStart]
  omega

/-- However the bytes of a body arrive and whatever `write` takes of them, nothing is stored
behind the buffer, and `init_form` is called at most once, with the whole body in the file. It
is called if nothing fails and the body goes on often enough, and it can always go on. -/
def BodyKept (maxUploadSize : Nat) (values : Values) (body unread input : Bytes) : Prop :=
  ∀ rs u os, run (step maxUploadSize) (bodyStart values unread input).1 rs = some (u, os) →
    (∀ o ∈ (bodyStart values unread input).2 :: os, o.Fits) ∧
      (forms os = [] ∨ forms os = [body]) ∧
      (.failed ∉ rs → 6 * body.length + 1 < rs.countP (fun r => r ≠ .blocked) →
        forms os = [body]) ∧
      (step maxUploadSize u (.amount 1)).isSome

theorem body_kept {values : Values} {text body behind unread input : Bytes} {maxUploadSize : Nat}
    (htext : values.contentLength = some text) (hlength : atoi text = body.length)
    (hpos : 0 < body.length) (hmax : body.length ≤ maxUploadSize)
    (hinput : unread ++ input = body ++ behind) (hunread : unread.length ≤ body.length)
    (hpiece : unread.length ≤ clientStreamSize) :
    BodyKept maxUploadSize values body unread input := by
  intro rs u os hrun
  have hstart : Uploading (unread ++ input) body.length (bodyStart values unread input).1 := by
    have hlen : body.length ≤ (unread ++ input).length := by
      rw [hinput, List.length_append]
      exact Nat.le_add_right body.length behind.length
    have h := bodyStart_uploading htext hlength hpos hpiece hlen
    rwa [Nat.max_eq_left hunread] at h
  have htake : (unread ++ input).take body.length = body := by
    rw [hinput, List.take_left]
  obtain ⟨hfits, hforms, hends⟩ := hstart.run hmax (by simp [bodyStart]) hrun
  rw [htake] at hforms hends
  refine ⟨List.forall_mem_cons.mpr ⟨bodyStart_fits values input hpiece, hfits⟩, hforms, ?_, ?_⟩
  · intro hfailed hcount
    exact hends hfailed (Nat.lt_of_le_of_lt (pending_bodyStart values unread input hunread) hcount)
  · have hkeep : Uploading (unread ++ input) body.length u :=
      run_preserves (C := fun _ _ => True) (fun s r s' a hs _ hstep => hs.step hmax hstep) hstart
        (along_of_forall (fun _ _ => trivial) _) hrun
    exact hkeep.goes_on maxUploadSize

/-- A request with more bytes in its buffer than its length says. -/
theorem surplus_start {values : Values} {text unread : Bytes} {n : Nat}
    (htext : values.contentLength = some text) (hlength : atoi text = n)
    (hsurplus : n < unread.length) (input : Bytes) :
    (bodyStart values unread input).1 =
      { status := .bodyRead, cgiClose := true, lineAt := 0, data := unread, filesize := n
        filepos := unread.length, file := [], input := input } := by
  simp [bodyStart, htext, hlength, Nat.le_of_lt hsurplus]

/-- Bytes behind the body that come with the header reach the file, too, or the file is empty
because they are more than may be uploaded. -/
theorem surplus_run {values : Values} {text unread : Bytes} {n : Nat}
    (htext : values.contentLength = some text) (hlength : atoi text = n) (hpos : 0 < n)
    (hsurplus : n < unread.length) (maxUploadSize : Nat) (input : Bytes) :
    ∃ u os, run (step maxUploadSize) (bodyStart values unread input).1
        [.blocked, .amount unread.length, .blocked] = some (u, os) ∧
      forms os = [if unread.length ≤ maxUploadSize then unread else []] := by
  have hdata : unread ≠ [] := List.length_pos_iff.mp (Nat.zero_lt_of_lt hsurplus)
  have hone : 1 ≤ unread.length ∧ unread.length ≤ unread.length :=
    ⟨List.length_pos_iff.mpr hdata, Nat.le_refl _⟩
  have hno : bytesToRead
      { status := .bodyRead, cgiClose := true, lineAt := 0, data := unread, filesize := n
        filepos := unread.length, file := [], input := input } = 0 := by
    rw [bytesToRead]
    dsimp only
    rw [if_neg (Nat.ne_of_gt hpos), Nat.sub_eq_zero_of_le (Nat.le_of_lt hsurplus), Nat.min_zero]
  rw [surplus_start htext hlength hsurplus, run, step]
  dsimp only
  rw [readBody, if_pos hno]
  dsimp only
  rw [run, step]
  dsimp only
  rw [writeBody, if_neg hdata]
  by_cases hmax : unread.length ≤ maxUploadSize
  · rw [if_pos hmax, if_pos hmax]
    dsimp only
    rw [if_pos hone]
    dsimp only
    rw [run, step]
    dsimp only
    rw [writeBody, if_pos List.drop_length, if_pos (Or.inl rfl)]
    exact ⟨_, _, rfl, by rw [List.take_length]; rfl⟩
  · rw [if_neg hmax, if_neg hmax]
    dsimp only
    rw [run, step]
    dsimp only
    rw [writeBody, if_pos rfl, if_pos (Or.inl rfl)]
    exact ⟨_, _, rfl, rfl⟩

theorem surplus_not_kept {values : Values} {text body unread input : Bytes} {maxUploadSize : Nat}
    (htext : values.contentLength = some text) (hlength : atoi text = body.length)
    (hpos : 0 < body.length) (hsurplus : body.length < unread.length) :
    ¬ BodyKept maxUploadSize values body unread input := by
  intro hkept
  obtain ⟨u, os, hrun, hforms⟩ := surplus_run htext hlength hpos hsurplus maxUploadSize input
  obtain ⟨-, hsame, -⟩ := hkept _ u os hrun
  rw [hforms] at hsame
  rcases hsame with hnil | hsame
  · cases hnil
  · have hfile := congrArg List.length (List.singleton_inj.mp hsame)
    split at hfile
    · omega
    · exact Nat.ne_of_lt hpos hfile

/-- The body is kept exactly when the piece that ends the header brings no bytes behind it. -/
theorem body_kept_iff {values : Values} {text body behind unread input : Bytes}
    {maxUploadSize : Nat} (htext : values.contentLength = some text)
    (hlength : atoi text = body.length) (hpos : 0 < body.length)
    (hmax : body.length ≤ maxUploadSize) (hinput : unread ++ input = body ++ behind)
    (hpiece : unread.length ≤ clientStreamSize) :
    BodyKept maxUploadSize values body unread input ↔ unread.length ≤ body.length := by
  constructor
  · intro hkept
    by_contra hsurplus
    exact surplus_not_kept htext hlength hpos (Nat.lt_of_not_le hsurplus) hkept
  · intro hunread
    exact body_kept htext hlength hpos hmax hinput hunread hpiece

def eightValues : Values := { noValues with contentLength := some (Texts.ascii "8") }

/-- Eight bytes, of which three come with the header. -/
theorem body_kept_iff_eight : ∃ u os,
    run (step 100) (bodyStart eightValues (Texts.ascii "a=1") (Texts.ascii "&b=22")).1
      ([.blocked, .amount 2, .blocked, .amount 3, .amount 4, .blocked, .amount 4] ++
        List.replicate 50 (.amount 1)) = some (u, os) ∧ forms os = [Texts.ascii "a=1&b=22"] := by
  have hsome : (run (step 100)
      (bodyStart eightValues (Texts.ascii "a=1") (Texts.ascii "&b=22")).1
      ([.blocked, .amount 2, .blocked, .amount 3, .amount 4, .blocked, .amount 4] ++
        List.replicate 50 (.amount 1))).isSome = true := rfl
  obtain ⟨⟨u, os⟩, hrun⟩ := Option.isSome_iff_exists.mp hsome
  have hinput : Texts.ascii "a=1" ++ Texts.ascii "&b=22" = Texts.ascii "a=1&b=22" ++ [] := rfl
  have htext : eightValues.contentLength = some (Texts.ascii "8") := rfl
  have hmax : (Texts.ascii "a=1&b=22").length ≤ 100 := by decide
  have hkept := (body_kept_iff htext (by decide) (by decide) hmax hinput (by decide)).mpr (by decide)
  obtain ⟨-, -, hends, -⟩ := hkept _ u os hrun
  exact ⟨u, os, hrun, hends (by decide) (by decide)⟩

/-- A line end behind the body comes with the header and is taken for a part of it. -/
theorem line_end_in_file : ¬ ∀ (values : Values) (text body behind unread input : Bytes)
    (maxUploadSize : Nat), values.contentLength = some text → atoi text = body.length →
      0 < body.length → body.length ≤ maxUploadSize → unread ++ input = body ++ behind →
      unread.length ≤ clientStreamSize → BodyKept maxUploadSize values body unread input := by
  intro hclaim
  have hkept := hclaim eightValues (Texts.ascii "8") (Texts.ascii "a=1&b=22")
    (Texts.ascii "\r\n") (Texts.ascii "a=1&b=22\r\n") [] 100 rfl (by decide) (by decide) (by decide)
    (by decide) (by decide)
  exact surplus_not_kept rfl (by decide) (by decide) (by decide) hkept

end PostBody
