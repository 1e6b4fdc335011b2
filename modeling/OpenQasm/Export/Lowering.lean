import OpenQasm.Program.Basic
import OpenQasm.Export.Catalog

/-! Instructions as statements and definitions as global statements. -/
namespace OpenQasm

inductive Naming where
  | indexed | flat
deriving DecidableEq, Repr

/-- The name of a formal qubit. -/
def formalName (register : String) (index : Nat) : String := register ++ "_" ++ toString index

def Bit.operand (b : Bit) (naming : Naming) : Except Fault Operand :=
  match b.register with
  | some register =>
    match naming with
    | .indexed => .ok ⟨register, some b.index⟩
    | .flat => .ok ⟨formalName register b.index.toNat, none⟩
  | none =>
    if b.kind = .classical then .error (.physicalClassicalBit b)
    else match naming with
      | .indexed => .ok ⟨b.text, none⟩
      | .flat => .error (.physicalQubitInBody b)

def operands (bits : List Bit) (naming : Naming) : Except Fault (List Operand) :=
  bits.mapM (·.operand naming)

def Parameter.expression (fold : Bool) : Parameter → Expression
  | .value x => .real x fold
  | .symbol name => .identifier name

/-- Accepts the registers of a circuit if each has a name and a size. -/
def checkRegisters (c : Circuit) : Except Fault Unit :=
  (c.qregs ++ c.cregs).forM fun r =>
    if r.name.isEmpty then .error (.unnamedRegister c.name)
    else if r.size = 0 then .error (.emptyRegister r.name)
    else .ok ()

namespace Condition

/-- The left side of a condition within a circuit. -/
def targetExpression (target : ConditionTarget) (c : Circuit) (naming : Naming) :
    Except Fault Expression :=
  match target with
  | .register r =>
    if r.name.isEmpty then .error .unnamedConditionRegister
    else match c.register? r.name with
      | none => .error (.undeclaredConditionRegister r.name)
      | some declared =>
        if declared.kind = .classical then .ok (.identifier r.name)
        else .error (.undeclaredConditionRegister r.name)
  | .bit b =>
    if b.kind = .classical then do
      let o ← b.operand naming
      return .operand o
    else .error (.conditionBitKind b)

def equality (cond : Condition) (c : Circuit) (naming : Naming) : Except Fault Equality :=
  if cond.comparison = .equal then do
    let left ← targetExpression cond.target c naming
    return ⟨left, .integer cond.value⟩
  else .error (.unsupportedComparison cond.comparison)

end Condition

/-- A fault found while an instruction is lowered, as an error in that instruction. -/
def located {α : Type} (i : Instruction) (result : Except Fault α) : Except ExportFailure α :=
  match result with
  | .ok a => .ok a
  | .error fault => .error (.inside fault i)

/-- A fault that concerns no instruction. -/
def unlocated {α : Type} (result : Except Fault α) : Except ExportFailure α :=
  match result with
  | .ok a => .ok a
  | .error fault => .error (.general fault)

namespace Instruction

def call (i : Instruction) (s : Scope) (fold : Bool) (naming : Naming) :
    Except ExportFailure Call := do
  let name ← unlocated (s.resolve i.operation)
  let qubits ← located i (operands i.qubits naming)
  return ⟨name, i.operation.params.map (Parameter.expression fold), qubits⟩

/-- A measurement reads one qubit into one classical bit. -/
def measurement (i : Instruction) (naming : Naming) : Except ExportFailure Statement :=
  match i.qubits, i.clbits with
  | [q], [b] => do
    let target ← located i (b.operand naming)
    let qubit ← located i (q.operand naming)
    return .measure target [qubit]
  | qubits, clbits => .error (.inside (.measurementWidth qubits.length clbits.length) i)

/-- The statement of an instruction, whatever its condition. -/
def unconditioned (i : Instruction) (s : Scope) (fold : Bool) (naming : Naming) :
    Except ExportFailure Statement :=
  match i.operation.kind with
  | .gate => do
    let call ← i.call s fold naming
    return .gateCall call
  | .barrier => do
    let qubits ← located i (operands i.qubits naming)
    return .barrier qubits
  | .measurement => i.measurement naming
  | .subroutine => do
    let call ← i.call s fold naming
    return .subroutineCall call
  | .outside _ => .error (.inside .unknownKind i)

/-- The statement of an instruction of the circuit `c`. A condition becomes a branch around the
statement of the instruction without it. -/
def lower (i : Instruction) (c : Circuit) (s : Scope) (fold : Bool) (naming : Naming) :
    Except ExportFailure Statement :=
  match i.condition with
  | none => i.unconditioned s fold naming
  | some cond =>
    if i.operation.kind = .barrier then .error (.inside .conditionedBarrier i)
    else do
      let test ← located i (cond.equality c naming)
      let body ← i.unguarded.unconditioned s fold naming
      return .branch test [body]

end Instruction

namespace Circuit

def lowered (c : Circuit) (s : Scope) (fold : Bool) (naming : Naming) :
    Except ExportFailure (List Statement) :=
  c.instructions.mapM fun i => i.lower c s fold naming

/-- The names of a circuit's qubits as formal qubits of a definition. -/
def qubitFormals (c : Circuit) : List String :=
  c.qregs.flatMap fun r => (List.range r.size.toNat).map (formalName r.name)

end Circuit

namespace Definition

/-- The signature of an operation without a body, with made-up formal names. -/
def madeUpSignature (d : Definition) : Signature :=
  { name := d.name
    params := (List.range d.operation.params.length).map (formalName "param")
    qubits := (List.range d.operation.qubitCount.toNat).map (formalName "q") }

def lower (d : Definition) (s : Scope) (fold : Bool) : Except ExportFailure ProgramItem :=
  match d.form with
  | .gate body => do
    unlocated (checkRegisters body)
    let statements ← body.lowered s fold .flat
    return .gate ⟨d.name, body.symbols, body.qubitFormals⟩ statements
  | .subroutine body => do
    unlocated (checkRegisters body)
    let statements ← body.lowered s fold .flat
    return .subroutine ⟨d.name, body.symbols, body.qubitFormals.map (⟨·, none⟩)⟩ statements
  | .bodiless => .ok (.bodilessGate d.madeUpSignature)

end Definition
end OpenQasm
