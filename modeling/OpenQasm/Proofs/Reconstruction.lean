import OpenQasm.Circuit.Construction
import OpenQasm.Proofs.Provenance
import OpenQasm.Proofs.Renumbering

/-! The same circuits made with other identities are exported alike. -/
namespace OpenQasm

section
variable (f : OperationId → OperationId)

namespace Operation

@[simp] theorem renumber_clbitCount (op : Operation) :
    (op.renumber f).clbitCount = op.clbitCount := by
  cases op; rfl

theorem ofStandard_renumber (id : OperationId) (gate : StandardGate) (params : List Parameter) :
    ofStandard (f id) gate params = (ofStandard id gate params).map (renumber f) := by
  unfold ofStandard
  split <;> rfl

theorem bodiless_renumber (id : OperationId) (name : String) (qubitCount : UInt64)
    (params : List Parameter) :
    bodiless (f id) name qubitCount params =
      (bodiless id name qubitCount params).map (renumber f) := by
  unfold bodiless
  split
  · rfl
  · split <;> rfl

theorem barrier_renumber (id : OperationId) (width : UInt64) :
    barrier (f id) width = (barrier id width).map (renumber f) := by
  unfold barrier
  split <;> rfl

theorem measurement_renumber (id : OperationId) (width : UInt64) :
    measurement (f id) width = (measurement id width).map (renumber f) := by
  unfold measurement
  split <;> rfl

end Operation

namespace Circuit
variable (c : Circuit)

theorem after_declare_renumber (r : Register) :
    (Edit.declare r).after (c.renumber f) = ((Edit.declare r).after c).renumber f := by
  rw [Edit.declare, InPlace.after_get_bind, InPlace.after_get_bind, renumber_register?,
    renumber_name]
  split
  · rfl
  · cases c
    split <;> rfl

theorem checkOperand_renumber (operation : String) (kind : BitKind) (b : Bit) :
    (c.renumber f).checkOperand operation kind b = c.checkOperand operation kind b := by
  simp only [checkOperand, renumber_register?, renumber_name]

theorem checkQubits_renumber (operation : String) (seen bits : List Bit) :
    (c.renumber f).checkQubits operation seen bits = c.checkQubits operation seen bits := by
  induction bits generalizing seen with
  | nil => rfl
  | cons b rest ih => rw [checkQubits, checkQubits, checkOperand_renumber, ih]

theorem checkClbits_renumber (operation : String) (bits : List Bit) :
    (c.renumber f).checkClbits operation bits = c.checkClbits operation bits := by
  induction bits with
  | nil => rfl
  | cons b rest ih => rw [checkClbits, checkClbits, checkOperand_renumber, ih]

theorem after_append_renumber (i : Instruction) :
    (Edit.append (i.renumber f)).after (c.renumber f) = ((Edit.append i).after c).renumber f := by
  have hcheck : (c.renumber f).checkInstruction (i.renumber f) = c.checkInstruction i := by
    simp only [checkInstruction, Instruction.renumber_operation, Instruction.renumber_qubits,
      Instruction.renumber_clbits, Operation.renumber_name, Operation.renumber_qubitCount,
      Operation.renumber_clbitCount, checkQubits_renumber, checkClbits_renumber]
  rw [Edit.append, Edit.append, InPlace.after_get_bind, InPlace.after_get_bind, hcheck]
  cases c.checkInstruction i with
  | error e => rfl
  | ok u =>
    show Circuit.mk _ _ _ _ = renumber f (Circuit.mk _ _ _ _)
    cases c
    simp [renumber, renumberAll_eq_map]

theorem asOperation_renumber (id : OperationId) (kind : OperationKind)
    (arguments : Option (List Parameter)) :
    (c.renumber f).asOperation (f id) kind arguments =
      (c.asOperation id kind arguments).map (Operation.renumber f) := by
  have hsymbols := c.renumber_symbols f
  unfold asOperation
  rw [hsymbols, renumber_name]
  cases arguments with
  | none => cases c; rfl
  | some params =>
    cases c
    dsimp only
    split <;> rfl

theorem asGate_renumber (id : OperationId) (arguments : Option (List Parameter)) :
    (c.renumber f).asGate (f id) arguments =
      (c.asGate id arguments).map (Operation.renumber f) := by
  have hcount : (c.renumber f).clbitCount = c.clbitCount := by
    simp only [clbitCount, renumber_cregs]
  unfold asGate
  rw [hcount, asOperation_renumber, renumber_name]
  split <;> rfl

end Circuit
end

/-- A step in the making of circuits. Circuits and operations are referred to by number, in the
order in which they were made. -/
inductive MakingStep where
  | circuit (name : String)
  | circuitOfSizes (name : String) (qubitCount clbitCount : UInt64)
  | declare (circuit : Nat) (r : Register)
  | append (circuit operation : Nat) (qubits clbits : List Bit) (condition : Option Condition)
  | standard (gate : StandardGate) (params : List Parameter)
  | bodiless (name : String) (qubitCount : UInt64) (params : List Parameter)
  | barrier (width : UInt64)
  | measurement (width : UInt64)
  | gate (circuit : Nat) (arguments : Option (List Parameter))
  | subroutine (circuit : Nat) (arguments : Option (List Parameter))
  | unchecked (kind : OperationKind) (name : String) (qubitCount clbitCount : UInt64)
      (params : List Parameter) (body : Option Nat) (standard : Option StandardGate)

structure Workshop where
  circuits : List Circuit
  operations : List Operation

namespace Workshop

def empty : Workshop := ⟨[], []⟩

/-- Keeps a circuit as a change leaves it, if there is one of that number. -/
def change (w : Workshop) (n : Nat) (edit : Circuit.Edit) : Workshop :=
  match w.circuits[n]? with
  | some c => { w with circuits := w.circuits.set n (edit.after c) }
  | none => w

/-- Keeps an operation, if one was made. -/
def keep (w : Workshop) : Option (Except CircuitError Operation) → Workshop
  | some (.ok op) => { w with operations := w.operations ++ [op] }
  | _ => w

/-- The workshop after a step. A new operation takes its identity from the numbering. -/
def step (numbering : Nat → OperationId) (w : Workshop) : MakingStep → Workshop
  | .circuit name => { w with circuits := w.circuits ++ [.empty name] }
  | .circuitOfSizes name qubitCount clbitCount =>
    { w with circuits := w.circuits ++ [.ofSizes name qubitCount clbitCount] }
  | .declare n r => w.change n (.declare r)
  | .append n operation qubits clbits condition =>
    match w.operations[operation]? with
    | some op => w.change n (.append ⟨op, qubits, clbits, condition⟩)
    | none => w
  | .standard gate params => w.keep (some (Operation.ofStandard next gate params))
  | .bodiless name qubitCount params =>
    w.keep (some (Operation.bodiless next name qubitCount params))
  | .barrier width => w.keep (some (Operation.barrier next width))
  | .measurement width => w.keep (some (Operation.measurement next width))
  | .gate n arguments => w.keep (w.circuits[n]?.map (·.asGate next arguments))
  | .subroutine n arguments => w.keep (w.circuits[n]?.map (·.asSubroutine next arguments))
  | .unchecked kind name qubitCount clbitCount params body standard =>
    w.keep (some (.ok ⟨kind, name, qubitCount, clbitCount, params,
      body.bind (w.circuits[·]?), standard, next⟩))
where
  next : OperationId := numbering w.operations.length

/-- All that some steps make. -/
def made (numbering : Nat → OperationId) (steps : List MakingStep) : Workshop :=
  steps.foldl (step numbering) empty

def renumber (f : OperationId → OperationId) (w : Workshop) : Workshop :=
  ⟨w.circuits.map (Circuit.renumber f), w.operations.map (Operation.renumber f)⟩

section
variable {f : OperationId → OperationId} (w : Workshop)

theorem change_renumber (n : Nat) {edit edit' : Circuit.Edit}
    (h : ∀ c, edit'.after (c.renumber f) = (edit.after c).renumber f) :
    (w.renumber f).change n edit' = (w.change n edit).renumber f := by
  unfold change
  simp only [renumber, List.getElem?_map]
  cases w.circuits[n]? with
  | none => rfl
  | some c => simp only [Option.map_some, h, List.map_set]

theorem keep_renumber (x : Option (Except CircuitError Operation)) :
    (w.renumber f).keep (x.map (Except.map (Operation.renumber f))) = (w.keep x).renumber f := by
  rcases x with _ | e | op
  · rfl
  · rfl
  · simp [keep, Except.map, renumber]

/-- A step under a numbering does with renumbered data what the step does under the numbering
by position. -/
theorem step_renumber (st : MakingStep) :
    (w.renumber f).step f st = (w.step id st).renumber f := by
  have hnext : step.next f (w.renumber f) = f (step.next id w) := by
    simp [step.next, renumber]
  cases st with
  | circuit name => simp [step, renumber, Circuit.empty, Circuit.renumber, renumberAll]
  | circuitOfSizes name qubitCount clbitCount =>
    simp [step, renumber, Circuit.ofSizes, Circuit.renumber, renumberAll]
  | declare n r => exact w.change_renumber n fun c => c.after_declare_renumber f r
  | append n operation qubits clbits condition =>
    simp only [step, renumber, List.getElem?_map]
    cases w.operations[operation]? with
    | none => rfl
    | some op =>
      exact w.change_renumber n fun c => c.after_append_renumber f ⟨op, qubits, clbits, condition⟩
  | standard gate params =>
    rw [step, step, hnext, Operation.ofStandard_renumber]
    exact w.keep_renumber (some _)
  | bodiless name qubitCount params =>
    rw [step, step, hnext, Operation.bodiless_renumber]
    exact w.keep_renumber (some _)
  | barrier width =>
    rw [step, step, hnext, Operation.barrier_renumber]
    exact w.keep_renumber (some _)
  | measurement width =>
    rw [step, step, hnext, Operation.measurement_renumber]
    exact w.keep_renumber (some _)
  | gate n arguments =>
    rw [step, step, hnext, ← keep_renumber]
    simp [renumber, Function.comp_def, Circuit.asGate_renumber]
  | subroutine n arguments =>
    rw [step, step, hnext, ← keep_renumber]
    simp [renumber, Function.comp_def, Circuit.asSubroutine, Circuit.asOperation_renumber]
  | unchecked kind name qubitCount clbitCount params body standard =>
    have hbody : (body.bind (w.circuits[·]?)).map (Circuit.renumber f) =
        body.bind ((w.renumber f).circuits[·]?) := by
      cases body <;> simp [renumber]
    rw [step, step, hnext, ← keep_renumber, ← hbody, ← renumberBody_eq_map]
    rfl

end

theorem made_renumber (numbering : Nat → OperationId) (steps : List MakingStep) :
    made numbering steps = (made id steps).renumber numbering := by
  have hfold (w : Workshop) : steps.foldl (step numbering) (w.renumber numbering) =
      (steps.foldl (step id) w).renumber numbering := by
    induction steps generalizing w with
    | nil => rfl
    | cons st rest ih => rw [List.foldl_cons, List.foldl_cons, step_renumber, ih]
  exact hfold empty

end Workshop

theorem toText_renumber {f : OperationId → OperationId} (hf : Function.Injective f) (c : Circuit)
    (options : Options) :
    ((c.renumber f).toText options).mapError ExportFailure.report =
      (c.toText options).mapError ExportFailure.report := by
  unfold Circuit.toText Circuit.toProgram
  rw [Session.renumber_start, Session.build_renumber hf]
  cases (Session.start c options).build.2 with
  | error e => simp [Except.map, Except.mapError]
  | ok p => rfl

/-- The export of a circuit does not depend on the numbers of its operations. With all of them
put through an injective map, at any depth, a circuit gives the same program, text and
definitions, or fails with the same report. So the same steps make circuits with the same text,
or the same report, whatever different identities their operations are given. -/
theorem export_independent_of_identities (f : OperationId → OperationId)
    (hf : Function.Injective f) :
    (∀ (c : Circuit) (options : Options),
      let original := (Session.start c options).build
      let renumbered := (Session.start (c.renumber f) options).build
      renumbered.2.mapError ExportFailure.report = original.2.mapError ExportFailure.report ∧
        renumbered.1.catalog.definitions.map (fun d => (d.form.kind, d.name)) =
          original.1.catalog.definitions.map (fun d => (d.form.kind, d.name)) ∧
        ((c.renumber f).toText options).mapError ExportFailure.report =
          (c.toText options).mapError ExportFailure.report) ∧
      ∀ g : Nat → OperationId, Function.Injective g →
        ∀ (steps : List MakingStep) (n : Nat) (options : Options),
          (Workshop.made f steps).circuits[n]?.map
              (fun c => (c.toText options).mapError ExportFailure.report) =
            (Workshop.made g steps).circuits[n]?.map
              (fun c => (c.toText options).mapError ExportFailure.report) := by
  constructor
  · intro c options original renumbered
    have hbuild : renumbered =
        (original.1.renumber f, original.2.mapError (ExportFailure.renumber f)) :=
      Session.build_renumber hf (Session.start c options)
    rw [hbuild]
    refine ⟨?_, ?_, toText_renumber hf c options⟩
    · cases original.2 with
      | error e => simp [Except.mapError]
      | ok p => rfl
    · simp [Session.renumber, Catalog.renumber, Definition.renumber, Function.comp_def,
        DefinitionForm.kind_renumber]
  · intro g hg steps n options
    rw [Workshop.made_renumber f, Workshop.made_renumber g]
    simp [Workshop.renumber, Function.comp_def, toText_renumber hf, toText_renumber hg]

/-- Counted from a hundred on, the operations of the nested circuit have the same definitions and
the same text, and so has what is made anew in the same steps. -/
theorem Nested.circuit_renumbered :
    Function.Injective (· + 100 : OperationId → OperationId) ∧
      (circuit.renumber (· + 100)).instructions.map (·.operation.id) = [105, 104, 100] ∧
      (Session.start (circuit.renumber (· + 100)) .standard).build.1.catalog.definitions.map
        (fun d => (d.form.kind, d.name)) =
          [(.bodiless, "kick"), (.gate, "swap_1"), (.subroutine, "swap_2")] ∧
      ((circuit.renumber (· + 100)).toText .standard).mapError ExportFailure.report =
        (circuit.toText .standard).mapError ExportFailure.report ∧
      let steps : List MakingStep := [.circuitOfSizes "main" 1 0,
        .bodiless "kick" 1 [.symbol "theta"], .append 0 0 [q 0] [] none]
      (Workshop.made (· + 100) steps).circuits[0]?.map
          (fun c => (c.toText .standard).mapError ExportFailure.report) =
        (Workshop.made id steps).circuits[0]?.map
          (fun c => (c.toText .standard).mapError ExportFailure.report) := by
  have hf : Function.Injective (· + 100 : OperationId → OperationId) :=
    fun _ _ => Nat.add_right_cancel
  obtain ⟨hcircuit, hmade⟩ := export_independent_of_identities (· + 100) hf
  obtain ⟨-, hdefinitions, htext⟩ := hcircuit circuit .standard
  exact ⟨hf, rfl, hdefinitions.trans rfl, htext, hmade id Function.injective_id _ 0 .standard⟩

end OpenQasm
