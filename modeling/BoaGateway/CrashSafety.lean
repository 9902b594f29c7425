import Mathlib.Data.Set.Insert
import Mathlib.Logic.Function.Basic

/-!
# Programs on files, and power losses

A program gives commands to a file system and looks at the files in between. The power may be
lost at every moment of a command. What holds at all moments of a program, and what holds behind
it, follows one command at a time. A device that keeps one value in its files agrees with a store
that knows which values it may hold.
-/

namespace CrashSafety

variable {ι α β γ δ κ υ ρ : Type}

/-- The files by name; `none` for a file that does not exist. -/
abbrev Disk (ι α : Type) := ι → Option (List α)

inductive Command (ι α : Type) where
  | write (file : ι) (text : List α)
  | copy (source target : ι)
  /-- The target gets its new text at one moment. -/
  | rename (source target : ι)
  /-- The target is on another device and written like a copy. -/
  | move (source target : ι)
  | remove (file : ι)

variable [DecidableEq ι]

/-- The file takes the place of the other. -/
def renamed (source target : ι) (text : List α) (d : Disk ι α) : Disk ι α :=
  Function.update (Function.update d target (some text)) source none

/-- The files when a command is over. -/
def Command.run : Command ι α → Disk ι α → Disk ι α
  | write file text, d => Function.update d file (some text)
  | copy source target, d =>
    match d source with
    | none => d
    | some text => Function.update d target (some text)
  | rename source target, d | move source target, d =>
    match d source with
    | none => d
    | some text => renamed source target text d
  | remove file, d => Function.update d file none

/-- A file that is being written holds a first part of the text. -/
def Partly (file : ι) (text : List α) (d e : Disk ι α) : Prop :=
  ∃ part, part <+: text ∧ e = Function.update d file (some part)

/-- The files at a moment of a command. -/
def Command.During : Command ι α → Disk ι α → Disk ι α → Prop
  | write file text, d, e => e = d ∨ Partly file text d e
  | copy source target, d, e => e = d ∨ ∃ text, d source = some text ∧ Partly target text d e
  | rename source target, d, e => e = d ∨ e = (rename source target).run d
  | move source target, d, e =>
    e = d ∨ e = (move source target).run d ∨
      ∃ text, d source = some text ∧
        (e = Function.update d target none ∨ Partly target text d e)
  | remove file, d, e => e = d ∨ e = (remove file).run d

inductive Program (ι α β : Type) where
  | done (b : β)
  | command (c : Command ι α) (next : Program ι α β)
  | look (next : Disk ι α → Program ι α β)

namespace Program

def bind : Program ι α β → (β → Program ι α γ) → Program ι α γ
  | done b, f => f b
  | command c next, f => command c (next.bind f)
  | look next, f => look fun d => (next d).bind f

/-- For programs that may be undefined. -/
def andThen (p : Program ι α (Option β)) (f : β → Program ι α (Option γ)) :
    Program ι α (Option γ) :=
  p.bind fun
    | none => done none
    | some b => f b

/-- The result of a program, and the files behind it. -/
def run : Program ι α β → Disk ι α → β × Disk ι α
  | done b, d => (b, d)
  | command c next, d => next.run (c.run d)
  | look next, d => (next d).run d

/-- The files at a moment of a program. -/
def During : Program ι α β → Disk ι α → Disk ι α → Prop
  | done _, d, e => e = d
  | command c next, d, e => c.During d e ∨ next.During (c.run d) e
  | look next, d, e => (next d).During d e

/-- The first condition holds of the files at all moments of the program, the second one of its
result and the files behind it. -/
def Safe (C : Disk ι α → Prop) (Q : β → Disk ι α → Prop) : Program ι α β → Disk ι α → Prop
  | done b, d => C d ∧ Q b d
  | command c next, d => (∀ e, c.During d e → C e) ∧ next.Safe C Q (c.run d)
  | look next, d => (next d).Safe C Q d

variable {C : Disk ι α → Prop} {Q : β → Disk ι α → Prop} {d e : Disk ι α}

theorem Safe.during {p : Program ι α β} (h : p.Safe C Q d) (he : p.During d e) : C e := by
  induction p generalizing d with
  | done b =>
    cases he
    exact h.1
  | command c next ih =>
    rcases he with he | he
    · exact h.1 e he
    · exact ih h.2 he
  | look next ih => exact ih d h he

theorem Safe.result {p : Program ι α β} (h : p.Safe C Q d) : Q (p.run d).1 (p.run d).2 := by
  induction p generalizing d with
  | done b => exact h.2
  | command c next ih => exact ih h.2
  | look next ih => exact ih d h

theorem Safe.mono {p : Program ι α β} {Q' : β → Disk ι α → Prop} (h : p.Safe C Q d)
    (hQ : ∀ b e, Q b e → Q' b e) : p.Safe C Q' d := by
  induction p generalizing d with
  | done b => exact ⟨h.1, hQ b d h.2⟩
  | command c next ih => exact ⟨h.1, ih h.2⟩
  | look next ih => exact ih d h

/-- A program behind a program. -/
theorem Safe.bind {p : Program ι α β} {f : β → Program ι α γ} {R : γ → Disk ι α → Prop}
    (h : p.Safe C (fun b e => (f b).Safe C R e) d) : (p.bind f).Safe C R d := by
  induction p generalizing d with
  | done b => exact h.2
  | command c next ih => exact ⟨h.1, ih h.2⟩
  | look next ih => exact ih d h

/-- A program behind a program that is defined. -/
theorem Safe.andThen {p : Program ι α (Option β)} {f : β → Program ι α (Option γ)}
    {R : Option γ → Disk ι α → Prop} {b : β}
    (h : p.Safe C (fun result e => result = some b ∧ (f b).Safe C R e) d) :
    (p.andThen f).Safe C R d := by
  apply Safe.bind
  apply h.mono
  rintro result e ⟨rfl, hnext⟩
  exact hnext

theorem safe_write {file : ι} {text : List α} {next : Program ι α β} (hd : C d)
    (hpart : ∀ part, part <+: text → C (Function.update d file (some part)))
    (hnext : next.Safe C Q (Function.update d file (some text))) :
    (command (.write file text) next).Safe C Q d := by
  refine ⟨?_, hnext⟩
  rintro e (rfl | ⟨part, hbegins, rfl⟩)
  · exact hd
  · exact hpart part hbegins

theorem safe_copy {source target : ι} {text : List α} {next : Program ι α β}
    (hsource : d source = some text) (hd : C d)
    (hpart : ∀ part, part <+: text → C (Function.update d target (some part)))
    (hnext : next.Safe C Q (Function.update d target (some text))) :
    (command (.copy source target) next).Safe C Q d := by
  have hrun : (Command.copy source target).run d = Function.update d target (some text) := by
    rw [Command.run, hsource]
  constructor
  · rintro e (rfl | ⟨text', hsource', part, hbegins, rfl⟩)
    · exact hd
    · cases hsource.symm.trans hsource'
      exact hpart part hbegins
  · rw [hrun]
    exact hnext

theorem safe_rename {source target : ι} {text : List α} {next : Program ι α β}
    (hsource : d source = some text) (hd : C d) (hrenamed : C (renamed source target text d))
    (hnext : next.Safe C Q (renamed source target text d)) :
    (command (.rename source target) next).Safe C Q d := by
  have hrun : (Command.rename source target).run d = renamed source target text d := by
    rw [Command.run, hsource]
  constructor
  · rintro e (rfl | rfl)
    · exact hd
    · rw [hrun]
      exact hrenamed
  · rw [hrun]
    exact hnext

theorem safe_move {source target : ι} {text : List α} {next : Program ι α β}
    (hsource : d source = some text) (hd : C d) (hgone : C (Function.update d target none))
    (hpart : ∀ part, part <+: text → C (Function.update d target (some part)))
    (hmoved : C (renamed source target text d))
    (hnext : next.Safe C Q (renamed source target text d)) :
    (command (.move source target) next).Safe C Q d := by
  have hrun : (Command.move source target).run d = renamed source target text d := by
    rw [Command.run, hsource]
  constructor
  · rintro e (rfl | rfl | ⟨text', hsource', rfl | ⟨part, hbegins, rfl⟩⟩)
    · exact hd
    · rw [hrun]
      exact hmoved
    · exact hgone
    · cases hsource.symm.trans hsource'
      exact hpart part hbegins
  · rw [hrun]
    exact hnext

theorem safe_remove {file : ι} {next : Program ι α β} (hd : C d)
    (hgone : C (Function.update d file none))
    (hnext : next.Safe C Q (Function.update d file none)) :
    (command (.remove file) next).Safe C Q d := by
  refine ⟨?_, hnext⟩
  rintro e (rfl | rfl)
  · exact hd
  · exact hgone

end Program

/-- What a device does while it is on, what it does when it starts, and what a power loss leaves
of its files. -/
structure Device (ι α υ δ ρ : Type) where
  save : υ → Program ι α δ
  start : Program ι α ρ
  powerLoss : Disk ι α → Disk ι α

inductive Event (υ ρ : Type) where
  | saved (u : υ)
  /-- The power is lost while the device saves. -/
  | saveCut (u : υ)
  | off
  | started (result : ρ)
  /-- The power is lost while the device starts. -/
  | startCut

/-- A run of a device that is on or off. -/
inductive Life (D : Device ι α υ δ ρ) :
    Bool → Disk ι α → List (Event υ ρ) → Bool → Disk ι α → Prop where
  | nil (on : Bool) (d : Disk ι α) : Life D on d [] on d
  | saved {u : υ} {d e : Disk ι α} {es : List (Event υ ρ)} {on : Bool}
      (rest : Life D true ((D.save u).run d).2 es on e) : Life D true d (.saved u :: es) on e
  | saveCut {u : υ} {d t e : Disk ι α} {es : List (Event υ ρ)} {on : Bool}
      (moment : (D.save u).During d t) (rest : Life D false (D.powerLoss t) es on e) :
      Life D true d (.saveCut u :: es) on e
  | off {d e : Disk ι α} {es : List (Event υ ρ)} {on : Bool}
      (rest : Life D false (D.powerLoss d) es on e) : Life D true d (.off :: es) on e
  | started {d e : Disk ι α} {es : List (Event υ ρ)} {on : Bool}
      (rest : Life D true (D.start.run d).2 es on e) :
      Life D false d (.started (D.start.run d).1 :: es) on e
  | startCut {d t e : Disk ι α} {es : List (Event υ ρ)} {on : Bool}
      (moment : D.start.During d t) (rest : Life D false (D.powerLoss t) es on e) :
      Life D false d (.startCut :: es) on e

/-- The values that a store may hold behind an event. -/
def Event.after (value : υ → κ) (loads : κ → ρ → Prop) (s : Set κ) : Event υ ρ → Set κ
  | saved u => {value u}
  | saveCut u => insert (value u) s
  | off | startCut => s
  | started result => {k ∈ s | loads k result}

/-- Every start comes up with a value that the store may hold. -/
def Agrees (value : υ → κ) (loads : κ → ρ → Prop) : Set κ → List (Event υ ρ) → Prop
  | _, [] => True
  | s, e :: es =>
    (∀ result, e = .started result → ∃ k ∈ s, loads k result) ∧
      Agrees value loads (e.after value loads s) es

/-- A device that holds its value on and off. -/
structure Keeps (D : Device ι α υ δ ρ) (value : υ → κ) (loads : κ → ρ → Prop) (ok : υ → Prop)
    (On Off : κ → Disk ι α → Prop) : Prop where
  saves : ∀ {k : κ} {d : Disk ι α} {u : υ}, ok u → On k d → (D.save u).Safe
    (fun e => Off k (D.powerLoss e) ∨ Off (value u) (D.powerLoss e))
    (fun _ e => On (value u) e) d
  goesOff : ∀ {k : κ} {d : Disk ι α}, On k d → Off k (D.powerLoss d)
  starts : ∀ {k : κ} {d : Disk ι α}, Off k d → D.start.Safe (fun e => Off k (D.powerLoss e))
    (fun result e => loads k result ∧ On k e) d

/-- The events save only what may be saved. -/
def Allowed (ok : υ → Prop) (es : List (Event υ ρ)) : Prop :=
  ∀ u, .saved u ∈ es ∨ .saveCut u ∈ es → ok u

theorem Allowed.tail {ok : υ → Prop} {e : Event υ ρ} {es : List (Event υ ρ)}
    (h : Allowed ok (e :: es)) : Allowed ok es := by
  intro u hu
  apply h u
  exact hu.imp (List.mem_cons_of_mem _) (List.mem_cons_of_mem _)

variable {D : Device ι α υ δ ρ} {value : υ → κ} {loads : κ → ρ → Prop} {ok : υ → Prop}
  {On Off : κ → Disk ι α → Prop}

/-- A device that keeps its value comes up with a value of the store, whenever it was cut off. -/
theorem Keeps.agrees (h : Keeps D value loads ok On Off) {on on' : Bool} {d e : Disk ι α}
    {es : List (Event υ ρ)} (hlife : Life D on d es on' e) (hok : Allowed ok es) {s : Set κ}
    (hs : ∃ k ∈ s, if on then On k d else Off k d) : Agrees value loads s es := by
  induction hlife generalizing s with
  | nil on d => trivial
  | @saved u d e es on rest ih =>
    obtain ⟨k, -, hk⟩ := hs
    have hnew := (h.saves (hok u (Or.inl List.mem_cons_self)) hk).result
    exact ⟨nofun, ih hok.tail ⟨value u, Set.mem_singleton _, hnew⟩⟩
  | @saveCut u d t e es on moment rest ih =>
    obtain ⟨k, hmem, hk⟩ := hs
    refine ⟨nofun, ih hok.tail ?_⟩
    rcases (h.saves (hok u (Or.inr List.mem_cons_self)) hk).during moment with hold | hnew
    · exact ⟨k, Set.mem_insert_of_mem _ hmem, hold⟩
    · exact ⟨value u, Set.mem_insert _ _, hnew⟩
  | off rest ih =>
    obtain ⟨k, hmem, hk⟩ := hs
    exact ⟨nofun, ih hok.tail ⟨k, hmem, h.goesOff hk⟩⟩
  | started rest ih =>
    obtain ⟨k, hmem, hk⟩ := hs
    obtain ⟨hloads, hon⟩ := (h.starts hk).result
    constructor
    · intro result hresult
      cases hresult
      exact ⟨k, hmem, hloads⟩
    · exact ih hok.tail ⟨k, ⟨hmem, hloads⟩, hon⟩
  | startCut moment rest ih =>
    obtain ⟨k, hmem, hk⟩ := hs
    exact ⟨nofun, ih hok.tail ⟨k, hmem, (h.starts hk).during moment⟩⟩

end CrashSafety
