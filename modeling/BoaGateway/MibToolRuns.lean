import BoaGateway.MibToolRecords

/-!
# Runs of the mib tool

A command does what its items ask for, and reports what cannot be done, exactly if every item it
reaches fits.
-/

namespace MibTool

open ByteBlocks Texts TextFiles MibTypes MibValue MibText XmlLoad FieldTexts Tokens ArgumentLoops

variable {X : ToolTables}

/-- What the first item of the arguments asks for. -/
def Command.Demands (c : Command) (A : Answers) (args : List Bytes) (s s' : Store X) : Prop :=
  match c with
  | .set => SetDemands A args s s'
  | .add => AddDemands A (args.headD []) s s'
  | .del => DelDemands A (args.headD []) s s'

def Command.Fits (X : ToolTables) (c : Command) (A : Answers) (args : List Bytes) (s : Store X) :
    Prop :=
  match c with
  | .set => SetFits X A args s
  | .add => AddFits X A (args.headD []) s
  | .del => DelFits X A (args.headD []) s

/-- The command ends inside its arrays. With too few arguments it is an error and changes nothing;
else every item does what it asks for, or nothing with an error, and the command is an error exactly
if an item is. -/
def CommandRight (c : Command) (answers : Nat → Answers) (args : List Bytes) (s : Store X) : Prop :=
  ∃ s' e, c.run X answers args s = some (s', e) ∧
    (args.length < c.least → s' = s ∧ e = true) ∧
    (c.least ≤ args.length →
      (c.loop X answers).All (fun k args s => ∃ st, (c.loop X answers).item k args s = some st ∧
        Right (c.Demands (answers k) args s) s st) args s ∧
      (e = false ↔ (c.loop X answers).All
        (fun k args s => ∀ st, (c.loop X answers).item k args s = some st → st.error = false)
        args s))

variable {c : Command} {answers : Nat → Answers} {args : List Bytes} {s : Store X} {k : Nat}

theorem item_right (hne : args ≠ []) :
    (∃ st, (c.loop X answers).item k args s = some st ∧
      Right (c.Demands (answers k) args s) s st) ↔ c.Fits X (answers k) args s := by
  obtain ⟨arg, rest, rfl⟩ := List.exists_cons_of_ne_nil hne
  cases c with
  | set => exact setItem_right hne
  | add => exact addItem_right
  | del => exact delItem_right

theorem command_few (h : args.length < c.least) : CommandRight c answers args s := by
  refine ⟨s, true, if_pos h, fun _ => ⟨rfl, rfl⟩, fun hleast => ?_⟩
  exact absurd h (Nat.not_lt.mpr hleast)

/-- A command is right exactly if it has too few arguments or every item fits. -/
theorem commands_iff (c : Command) (answers : Nat → Answers) (args : List Bytes) (s : Store X) :
    CommandRight c answers args s ↔ args.length < c.least ∨
      (c.loop X answers).All (fun k args s => c.Fits X (answers k) args s) args s := by
  have hitems : (c.loop X answers).All (fun k args s =>
      ∃ st, (c.loop X answers).item k args s = some st ∧
        Right (c.Demands (answers k) args s) s st) args s ↔
      (c.loop X answers).All (fun k args s => c.Fits X (answers k) args s) args s :=
    Loop.all_congr fun k args s hne => item_right hne
  rw [← hitems]
  constructor
  · rintro ⟨s', e, -, -, hright⟩
    rcases Nat.lt_or_ge args.length c.least with hfew | hleast
    · exact Or.inl hfew
    · exact Or.inr (hright hleast).1
  · rintro (hfew | hall)
    · exact command_few hfew
    · rcases Nat.lt_or_ge args.length c.least with hfew | hleast
      · exact command_few hfew
      · have hsome : (c.loop X answers).All
            (fun k args s => ((c.loop X answers).item k args s).isSome) args s := by
          refine Loop.all_mono ?_ hall
          rintro k args s ⟨st, hst, -⟩
          rw [hst]
          rfl
        obtain ⟨s', e, hrun, herror⟩ := Loop.run_of_all hsome
        refine ⟨s', e, ?_, fun hfew => ?_, fun _ => ⟨hall, herror⟩⟩
        · rw [Command.run, if_neg (Nat.not_lt.mpr hleast), hrun]
        · exact absurd hfew (Nat.not_lt.mpr hleast)

def sampleTool : ToolTables where
  toXmlTables := sampleXmlTables
  mibName_plain := by decide
  chainName_plain := by decide
  names_apart := by decide
  chainTable_type := by decide
  mibTable_mibvalue := by decide
  chainTable_record := by decide

def emptyStore (X : ToolTables) : Store X := ⟨fun _ => [], fun _ => []⟩

def allAnswered : Answers :=
  ⟨true, true, true, true, true, fun _ => true, fun _ => true, fun _ => true, true, fun _ => 0, []⟩

/-- `del NOSUCH` names no chain and is no error. -/
theorem unknown_deleted : ¬CommandRight Command.del (fun _ => allAnswered) [ascii "NOSUCH"]
    (emptyStore sampleTool) := by
  rintro ⟨s', e, -, -, hright⟩
  have hitem := ((hright (Nat.le_refl 1)).1 (List.cons_ne_nil _ _)).1
  obtain ⟨-, i, hchain, -⟩ := (item_right (List.cons_ne_nil _ _)).mp hitem
  have hnone : chainIndex sampleTool (nameOf (ascii "NOSUCH")) = none := by decide
  rw [List.headD_cons, hnone] at hchain
  cases hchain

end MibTool
