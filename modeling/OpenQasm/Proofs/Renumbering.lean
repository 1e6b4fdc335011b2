import Mathlib.Logic.Function.Basic
import OpenQasm.Proofs.Building

/-! The export of a circuit does not depend on the identities of its operations. -/
namespace OpenQasm

mutual

/-- The operation with its own identity and those in its body put through a map. -/
def Operation.renumber (f : OperationId → OperationId) : Operation → Operation
  | ⟨kind, name, qubitCount, clbitCount, params, body, standard, id⟩ =>
    ⟨kind, name, qubitCount, clbitCount, params, renumberBody f body, standard, f id⟩

def Instruction.renumber (f : OperationId → OperationId) : Instruction → Instruction
  | ⟨operation, qubits, clbits, condition⟩ => ⟨operation.renumber f, qubits, clbits, condition⟩

def Circuit.renumber (f : OperationId → OperationId) : Circuit → Circuit
  | ⟨name, qregs, cregs, instructions⟩ => ⟨name, qregs, cregs, renumberAll f instructions⟩

def renumberBody (f : OperationId → OperationId) : Option Circuit → Option Circuit
  | none => none
  | some c => some (c.renumber f)

def renumberAll (f : OperationId → OperationId) : List Instruction → List Instruction
  | [] => []
  | i :: rest => i.renumber f :: renumberAll f rest

end

section
variable (f : OperationId → OperationId)

theorem renumberAll_eq_map (is : List Instruction) :
    renumberAll f is = is.map (Instruction.renumber f) := by
  induction is with
  | nil => rfl
  | cons i rest ih => rw [renumberAll, ih, List.map_cons]

theorem renumberBody_eq_map (body : Option Circuit) :
    renumberBody f body = body.map (Circuit.renumber f) := by
  cases body <;> rfl

namespace Circuit
variable (c : Circuit)

@[simp] theorem renumber_name : (c.renumber f).name = c.name := by
  cases c; rfl

@[simp] theorem renumber_qregs : (c.renumber f).qregs = c.qregs := by
  cases c; rfl

@[simp] theorem renumber_cregs : (c.renumber f).cregs = c.cregs := by
  cases c; rfl

@[simp] theorem renumber_instructions :
    (c.renumber f).instructions = c.instructions.map (Instruction.renumber f) := by
  cases c
  exact renumberAll_eq_map f _

@[simp] theorem renumber_register? (name : String) :
    (c.renumber f).register? name = c.register? name := by
  simp [register?]

@[simp] theorem renumber_qubitFormals : (c.renumber f).qubitFormals = c.qubitFormals := by
  simp [qubitFormals]

end Circuit

namespace Operation
variable (op : Operation)

@[simp] theorem renumber_kind : (op.renumber f).kind = op.kind := by
  cases op; rfl

@[simp] theorem renumber_name : (op.renumber f).name = op.name := by
  cases op; rfl

@[simp] theorem renumber_qubitCount : (op.renumber f).qubitCount = op.qubitCount := by
  cases op; rfl

@[simp] theorem renumber_params : (op.renumber f).params = op.params := by
  cases op; rfl

@[simp] theorem renumber_standard : (op.renumber f).standard = op.standard := by
  cases op; rfl

@[simp] theorem renumber_id : (op.renumber f).id = f op.id := by
  cases op; rfl

@[simp] theorem renumber_body : (op.renumber f).body = op.body.map (Circuit.renumber f) := by
  cases op
  exact renumberBody_eq_map f _

@[simp] theorem renumber_text : (op.renumber f).text = op.text := by
  simp [text]

@[simp] theorem renumber_inner :
    (op.renumber f).inner = op.inner.map (Instruction.renumber f) := by
  unfold inner
  rw [renumber_body]
  cases op.body with
  | none => rfl
  | some c => exact c.renumber_instructions f

end Operation

namespace Instruction
variable (i : Instruction)

@[simp] theorem renumber_operation : (i.renumber f).operation = i.operation.renumber f := by
  cases i; rfl

@[simp] theorem renumber_qubits : (i.renumber f).qubits = i.qubits := by
  cases i; rfl

@[simp] theorem renumber_clbits : (i.renumber f).clbits = i.clbits := by
  cases i; rfl

@[simp] theorem renumber_condition : (i.renumber f).condition = i.condition := by
  cases i; rfl

@[simp] theorem renumber_unguarded : (i.renumber f).unguarded = i.unguarded.renumber f := by
  cases i; rfl

@[simp] theorem renumber_text : (i.renumber f).text = i.text := by
  simp [text]

end Instruction

@[simp] theorem Circuit.renumber_symbols (c : Circuit) : (c.renumber f).symbols = c.symbols := by
  unfold symbols
  rw [c.renumber_instructions, List.flatMap_map]
  simp

end

def OperationKey.renumber (f : OperationId → OperationId) : OperationKey → OperationKey
  | .standard name => .standard name
  | .custom id => .custom (f id)

def Scope.renumber (f : OperationId → OperationId) (s : Scope) : Scope :=
  { s with entries := s.entries.map fun e => ⟨e.key.renumber f, e.name⟩ }

def DefinitionForm.renumber (f : OperationId → OperationId) : DefinitionForm → DefinitionForm
  | .gate body => .gate (body.renumber f)
  | .subroutine body => .subroutine (body.renumber f)
  | .bodiless => .bodiless

def Definition.renumber (f : OperationId → OperationId) (d : Definition) : Definition :=
  ⟨d.operation.renumber f, d.form.renumber f, d.name⟩

def Catalog.renumber (f : OperationId → OperationId) (k : Catalog) : Catalog :=
  ⟨k.scope.renumber f, k.definitions.map (Definition.renumber f)⟩

def ExportFailure.renumber (f : OperationId → OperationId) (e : ExportFailure) : ExportFailure :=
  ⟨e.fault, e.site.map (Instruction.renumber f)⟩

def Collected.renumber (f : OperationId → OperationId) (r : Collected) : Collected :=
  ⟨r.catalog.renumber f, r.failure.map (ExportFailure.renumber f)⟩

/-- What is shown of a failure has no identities in it. -/
@[simp] theorem ExportFailure.report_renumber (f : OperationId → OperationId) (e : ExportFailure) :
    (e.renumber f).report = e.report := by
  obtain ⟨fault, site⟩ := e
  cases site with
  | none => rfl
  | some i => simp [renumber, report]

theorem OperationKey.renumber_injective {f : OperationId → OperationId}
    (hf : Function.Injective f) : Function.Injective (OperationKey.renumber f) := by
  intro a b h
  cases a <;> cases b <;> simp [renumber] at h ⊢
  · exact h
  · exact hf h

section
variable {f : OperationId → OperationId}

theorem Operation.key_renumber (op : Operation) : (op.renumber f).key = op.key.renumber f := by
  unfold key
  rw [renumber_standard, renumber_name, renumber_id]
  split <;> rfl

namespace Scope
variable (s : Scope)

theorem includedNames_renumber : (s.renumber f).includedNames = s.includedNames := rfl

theorem boundNames_renumber : (s.renumber f).boundNames = s.boundNames := by
  rw [boundNames, boundNames, includedNames_renumber]
  simp [renumber, Function.comp_def]

theorem binds_renumber (name : String) : (s.renumber f).binds name = s.binds name := by
  rw [binds, boundNames_renumber, binds]

theorem firstFree_renumber (suffix : String) (tries : Nat) (name : String) :
    (s.renumber f).firstFree suffix tries name = s.firstFree suffix tries name := by
  induction tries generalizing name with
  | zero => rfl
  | succ tries ih => rw [firstFree, firstFree, binds_renumber, ih]

theorem freshName_renumber (name : String) :
    (s.renumber f).freshName name = s.freshName name := by
  have hsize : (s.renumber f).size = s.size := List.length_map _
  rw [freshName, freshName, firstFree_renumber, boundNames_renumber, hsize]

theorem provides_renumber (op : Operation) :
    (s.renumber f).provides (op.renumber f) = s.provides op := by
  simp only [provides, includedNames_renumber, op.renumber_standard, op.renumber_name]

variable (hf : Function.Injective f)
include hf

/-- The entry of an operation is where it was. -/
theorem key_beq_renumber (key : OperationKey) (op : Operation) :
    (key.renumber f == (op.renumber f).key) = (key == op.key) := by
  rw [op.key_renumber, Bool.eq_iff_iff, beq_iff_eq, beq_iff_eq,
    (OperationKey.renumber_injective hf).eq_iff]

theorem slot?_renumber (op : Operation) :
    (s.renumber f).slot? (op.renumber f) = s.slot? op := by
  simp only [slot?, renumber, List.findIdx?_map, Function.comp_def, key_beq_renumber hf]

theorem name?_renumber (op : Operation) :
    (s.renumber f).name? (op.renumber f) = s.name? op := by
  have hfind : (s.renumber f).entries.find? (·.key == (op.renumber f).key) =
      (s.entries.find? (·.key == op.key)).map fun e => ⟨e.key.renumber f, e.name⟩ := by
    simp only [renumber, List.find?_map, Function.comp_def, key_beq_renumber hf]
  rw [name?, name?, provides_renumber, hfind, Option.map_map, op.renumber_name]
  rfl

theorem knows_renumber (op : Operation) :
    (s.renumber f).knows (op.renumber f) = s.knows op := by
  rw [knows, knows, provides_renumber, s.slot?_renumber hf]

theorem resolve_renumber (op : Operation) :
    (s.renumber f).resolve (op.renumber f) = s.resolve op := by
  rw [resolve, resolve, s.name?_renumber hf, op.renumber_name]

omit hf in
theorem enrol_renumber (op : Operation) :
    (s.renumber f).enrol (op.renumber f) = (s.enrol op).renumber f := by
  rw [enrol, op.renumber_name, freshName_renumber, op.key_renumber]
  simp [renumber, enrol]

theorem register_renumber (op : Operation) :
    (s.renumber f).register (op.renumber f) =
      (s.register op).map fun r => (r.1.renumber f, r.2) := by
  rw [register_eq, register_eq, s.knows_renumber hf, s.resolve_renumber hf, op.renumber_name,
    op.renumber_kind, freshName_renumber]
  split
  · cases s.resolve op <;> rfl
  · split
    · rfl
    · rw [s.enrol_renumber op]
      rfl

end Scope

theorem DefinitionForm.kind_renumber (form : DefinitionForm) :
    (form.renumber f).kind = form.kind := by
  cases form <;> rfl

theorem Operation.form_renumber (op : Operation) :
    (op.renumber f).form = op.form.renumber f := by
  unfold form
  rw [renumber_body, renumber_kind]
  cases op.body with
  | none => rfl
  | some b =>
    simp only [Option.map_some]
    split <;> rfl

theorem Operation.isCalled_renumber (op : Operation) :
    (op.renumber f).IsCalled ↔ op.IsCalled := by
  simp [IsCalled]

namespace Catalog

theorem define_renumber (hf : Function.Injective f) (k : Catalog) (op : Operation)
    (form : DefinitionForm) :
    (k.renumber f).define (op.renumber f) (form.renumber f) = (k.define op form).renumber f := by
  have hreg : (k.renumber f).scope.register (op.renumber f) =
      (k.scope.register op).map fun r => (r.1.renumber f, r.2) :=
    k.scope.register_renumber hf op
  rw [define_eq, define_eq, hreg]
  cases k.scope.register op with
  | error fault => rfl
  | ok r =>
    show Collected.mk _ none = _
    simp [Collected.renumber, Catalog.renumber, Definition.renumber]

theorem collectAll_renumber {is : List Instruction}
    (h : ∀ i ∈ is, ∀ k : Catalog, (k.renumber f).collect (i.renumber f) =
      (k.collect i).renumber f) (k : Catalog) :
    (k.renumber f).collectAll (is.map (Instruction.renumber f)) =
      (k.collectAll is).renumber f := by
  induction is generalizing k with
  | nil => rfl
  | cons i rest ih =>
    rw [List.map_cons, collectAll, collectAll, h i List.mem_cons_self k]
    rcases k.collect i with ⟨next, _ | e⟩
    · exact ih (fun j hj => h j (List.mem_cons_of_mem i hj)) next
    · rfl

/-- The walk through renumbered instructions is the renumbered walk. -/
theorem collect_renumber (hf : Function.Injective f) (i : Instruction) :
    ∀ k : Catalog, (k.renumber f).collect (i.renumber f) = (k.collect i).renumber f := by
  induction i using Instruction.nested_induction with
  | step i ih =>
    intro k
    by_cases hc : i.operation.IsCalled
    · have hc' : (i.renumber f).operation.IsCalled := by
        rwa [i.renumber_operation, Operation.isCalled_renumber]
      rw [collect_of_called hc, collect_of_called hc', i.renumber_operation,
        Operation.renumber_inner, Operation.form_renumber, collectAll_renumber ih]
      have hknows : (k.renumber f).scope.knows (i.operation.renumber f) =
          k.scope.knows i.operation := k.scope.knows_renumber hf i.operation
      rw [hknows]
      split
      · rfl
      · rcases k.collectAll i.operation.inner with ⟨inner, _ | e⟩
        · exact define_renumber hf inner i.operation i.operation.form
        · rfl
    · obtain ⟨⟨kind, name, qubitCount, clbitCount, params, body, standard, id⟩, _, _, _⟩ := i
      cases kind with
      | gate => exact absurd (.inl rfl) hc
      | subroutine => exact absurd (.inr rfl) hc
      | barrier => rfl
      | measurement => rfl
      | outside code => rfl

end Catalog

theorem mapError_bind {ε ε' α β : Type} (g : ε → ε') (x : Except ε α) (k : α → Except ε β) :
    (x >>= k).mapError g = x.mapError g >>= fun a => (k a).mapError g := by
  cases x <;> rfl

theorem mapError_pure {ε ε' α : Type} (g : ε → ε') (a : α) :
    (pure a : Except ε α).mapError g = pure a := rfl

theorem mapError_mapM {ε ε' α α' β : Type} {g : ε → ε'} {r : α → α'} {h : α → Except ε β}
    {h' : α' → Except ε' β} {xs : List α} (hx : ∀ x ∈ xs, (h x).mapError g = h' (r x)) :
    (xs.mapM h).mapError g = (xs.map r).mapM h' := by
  induction xs with
  | nil => rfl
  | cons x rest ih =>
    simp only [List.map_cons, List.mapM_cons, mapError_bind, mapError_pure,
      hx x List.mem_cons_self, ih fun y hy => hx y (List.mem_cons_of_mem x hy)]

theorem mapError_located {α : Type} (i : Instruction) (x : Except Fault α) :
    (located i x).mapError (ExportFailure.renumber f) = located (i.renumber f) x := by
  cases x <;> rfl

theorem mapError_unlocated {α : Type} (x : Except Fault α) :
    (unlocated x).mapError (ExportFailure.renumber f) = unlocated x := by
  cases x <;> rfl

namespace Instruction
variable (i : Instruction) (s : Scope) (fold : Bool) (naming : Naming)

theorem measurement_renumber :
    (i.renumber f).measurement naming =
      (i.measurement naming).mapError (ExportFailure.renumber f) := by
  unfold measurement
  rw [renumber_qubits, renumber_clbits]
  split
  · simp only [mapError_bind, mapError_located, mapError_pure]
  · rfl

variable (hf : Function.Injective f)
include hf

theorem call_renumber :
    (i.renumber f).call (s.renumber f) fold naming =
      (i.call s fold naming).mapError (ExportFailure.renumber f) := by
  simp only [call, mapError_bind, mapError_located, mapError_unlocated, mapError_pure,
    renumber_operation, renumber_qubits, Operation.renumber_params, s.resolve_renumber hf]

theorem unconditioned_renumber :
    (i.renumber f).unconditioned (s.renumber f) fold naming =
      (i.unconditioned s fold naming).mapError (ExportFailure.renumber f) := by
  unfold unconditioned
  rw [renumber_operation, Operation.renumber_kind, renumber_qubits]
  cases i.operation.kind with
  | gate | subroutine => simp only [mapError_bind, mapError_pure, call_renumber i s fold naming hf]
  | barrier => simp only [mapError_bind, mapError_located, mapError_pure]
  | measurement => exact i.measurement_renumber naming
  | outside code => rfl

/-- The statement of an instruction keeps no identity, and neither does its failure but for the
instruction it names. -/
theorem lower_renumber (c : Circuit) :
    (i.renumber f).lower (c.renumber f) (s.renumber f) fold naming =
      (i.lower c s fold naming).mapError (ExportFailure.renumber f) := by
  have htest (cond : Condition) : cond.equality (c.renumber f) naming = cond.equality c naming := by
    simp only [Condition.equality, Condition.targetExpression, c.renumber_register?]
  unfold lower
  rw [renumber_condition, renumber_operation, Operation.renumber_kind, renumber_unguarded]
  cases i.condition with
  | none => exact i.unconditioned_renumber s fold naming hf
  | some cond =>
    dsimp only
    split
    · rfl
    · simp only [mapError_bind, mapError_located, mapError_pure, htest,
        unconditioned_renumber _ s fold naming hf]

end Instruction

theorem Circuit.lowered_renumber (hf : Function.Injective f) (c : Circuit) (s : Scope)
    (fold : Bool) (naming : Naming) :
    (c.renumber f).lowered (s.renumber f) fold naming =
      (c.lowered s fold naming).mapError (ExportFailure.renumber f) := by
  unfold lowered
  rw [renumber_instructions]
  symm
  apply mapError_mapM
  intro i _
  exact (i.lower_renumber s fold naming hf c).symm

theorem checkRegisters_renumber (c : Circuit) :
    checkRegisters (c.renumber f) = checkRegisters c := by
  simp only [checkRegisters, c.renumber_qregs, c.renumber_cregs, c.renumber_name]

theorem Definition.lower_renumber (hf : Function.Injective f) (d : Definition) (s : Scope)
    (fold : Bool) :
    (d.renumber f).lower (s.renumber f) fold =
      (d.lower s fold).mapError (ExportFailure.renumber f) := by
  obtain ⟨op, form, name⟩ := d
  cases form with
  | gate body | subroutine body =>
    simp only [lower, renumber, DefinitionForm.renumber, mapError_bind, mapError_unlocated,
      mapError_pure, checkRegisters_renumber, body.lowered_renumber hf, body.renumber_symbols,
      body.renumber_qubitFormals]
  | bodiless =>
    simp only [lower, renumber, DefinitionForm.renumber, madeUpSignature, op.renumber_params,
      op.renumber_qubitCount]
    rfl

namespace Session

def renumber (f : OperationId → OperationId) (s : Session) : Session :=
  ⟨s.circuit.renumber f, s.options, s.catalog.renumber f⟩

theorem renumber_start (c : Circuit) (options : Options) :
    start (c.renumber f) options = (start c options).renumber f := rfl

theorem program_renumber (hf : Function.Injective f) (c : Circuit) (options : Options)
    (k : Catalog) :
    program (c.renumber f) options (k.renumber f) =
      (program c options k).mapError (ExportFailure.renumber f) := by
  have hdefs :
      (k.definitions.mapM fun d : Definition => d.lower k.scope options.fold).mapError
          (ExportFailure.renumber f) =
        (k.renumber f).definitions.mapM fun d => d.lower (k.renumber f).scope options.fold := by
    apply mapError_mapM
    intro d _
    exact (d.lower_renumber hf k.scope options.fold).symm
  have hstatements : (c.renumber f).lowered (k.renumber f).scope options.fold .indexed =
      (c.lowered k.scope options.fold .indexed).mapError (ExportFailure.renumber f) :=
    c.lowered_renumber hf k.scope options.fold .indexed
  simp only [program, hdefs, hstatements, mapError_bind, mapError_pure, c.renumber_symbols,
    c.renumber_qregs, c.renumber_cregs]

theorem foldl_reserve_renumber (names : List String) (s : Scope) :
    names.foldl Scope.reserve (s.renumber f) = (names.foldl Scope.reserve s).renumber f := by
  induction names generalizing s with
  | nil => rfl
  | cons name rest ih =>
    have hname : (s.renumber f).reserve name = (s.reserve name).renumber f := by
      rw [Scope.reserve, Scope.reserve, s.binds_renumber]
      split <;> rfl
    rw [List.foldl_cons, List.foldl_cons, hname, ih]

theorem reserveGlobals_renumber (k : Catalog) (c : Circuit) :
    reserveGlobals (k.renumber f) (c.renumber f) = (reserveGlobals k c).renumber f := by
  have hnames : globalNames (c.renumber f) = globalNames c := by
    simp only [globalNames, c.renumber_qregs, c.renumber_cregs, c.renumber_symbols]
  rw [reserveGlobals, hnames]
  simp only [Catalog.renumber, reserveGlobals, foldl_reserve_renumber]

/-- A build of the renumbered circuit is the renumbered build. -/
theorem build_renumber (hf : Function.Injective f) (s : Session) :
    (s.renumber f).build =
      (s.build.1.renumber f, s.build.2.mapError (ExportFailure.renumber f)) := by
  have hcollect : (reserveGlobals (s.renumber f).catalog (s.renumber f).circuit).collectAll
      (s.renumber f).circuit.instructions =
        ((reserveGlobals s.catalog s.circuit).collectAll s.circuit.instructions).renumber f := by
    simp only [renumber, reserveGlobals_renumber, Circuit.renumber_instructions]
    exact Catalog.collectAll_renumber (fun i _ => Catalog.collect_renumber hf i) _
  have hregs : checkRegisters (s.renumber f).circuit = checkRegisters s.circuit :=
    checkRegisters_renumber s.circuit
  unfold build
  rw [hregs, hcollect]
  cases checkRegisters s.circuit with
  | error fault => rfl
  | ok =>
    rcases (reserveGlobals s.catalog s.circuit).collectAll s.circuit.instructions with ⟨k, _ | e⟩
    · exact Prod.ext rfl (program_renumber hf s.circuit s.options k)
    · rfl

end Session

end
end OpenQasm
