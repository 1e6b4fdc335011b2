import OpenQasm.Circuit.Basic

/-! Why a circuit cannot be exported, and what is shown of it. -/
namespace OpenQasm

inductive ReportKind where
  | unsupported | malformed
  | outside (code : Int)
deriving DecidableEq, Repr

namespace ReportKind

def ofCode (code : Int) : ReportKind :=
  if code = 0 then .unsupported else if code = 1 then .malformed else .outside code

def name : ReportKind → String
  | .unsupported => "unsupported construct"
  | .malformed => "malformed input"
  | .outside _ => "error"

end ReportKind

/-- The text of the instruction is empty when none is to blame. -/
structure Report where
  kind : ReportKind
  message : String
  instruction : String
deriving DecidableEq, Repr

def Report.text (r : Report) : String :=
  let stated := r.kind.name ++ ": " ++ r.message
  if r.instruction.isEmpty then stated else stated ++ " (in '" ++ r.instruction ++ "')"

inductive Fault where
  | unnamedRegister (circuit : String)
  | emptyRegister (register : String)
  | unnamedOperation (kind : OperationKind)
  | undefinedOperation (name : String)
  | unknownKind
  | conditionedBarrier
  | unsupportedComparison (comparison : Comparison)
  | unnamedConditionRegister
  | undeclaredConditionRegister (register : String)
  | conditionBitKind (bit : Bit)
  | measurementWidth (qubits clbits : Nat)
  | physicalClassicalBit (bit : Bit)
  | physicalQubitInBody (bit : Bit)
deriving DecidableEq, Repr

namespace Fault

def kind : Fault → ReportKind
  | .unknownKind | .conditionedBarrier | .unsupportedComparison _ | .measurementWidth .. =>
    .unsupported
  | _ => .malformed

def message : Fault → String
  | .unnamedRegister circuit => "unnamed register in circuit '" ++ circuit ++ "'"
  | .emptyRegister register => "register '" ++ register ++ "' has no designator size"
  | .unnamedOperation kind => "cannot register an unnamed " ++ kind.name
  | .undefinedOperation name => "operation '" ++ name ++ "' has no definition in scope"
  | .unknownKind => "unknown operation kind"
  | .conditionedBarrier => "barrier cannot be conditioned"
  | .unsupportedComparison comparison =>
    "only '==' conditions are supported, got '" ++ comparison.symbol ++ "'"
  | .unnamedConditionRegister => "condition has no target register"
  | .undeclaredConditionRegister register =>
    "condition on undeclared classical register '" ++ register ++ "'"
  | .conditionBitKind bit => "condition target " ++ bit.text ++ " is not a classical bit"
  | .measurementWidth qubits clbits =>
    "measurement must assign exactly one clbit from one qubit, got " ++ toString qubits ++
      " qubit(s) and " ++ toString clbits ++ " clbit(s)"
  | .physicalClassicalBit bit => "classical bit " ++ bit.text ++ " belongs to no register"
  | .physicalQubitInBody bit => "definition body addresses physical qubit " ++ bit.text

end Fault

/-- A fault and the instruction it was found in, if it concerns one. -/
structure ExportFailure where
  fault : Fault
  site : Option Instruction

namespace ExportFailure

def general (fault : Fault) : ExportFailure := ⟨fault, none⟩

def inside (fault : Fault) (i : Instruction) : ExportFailure := ⟨fault, some i⟩

def report (e : ExportFailure) : Report :=
  ⟨e.fault.kind, e.fault.message, (e.site.map Instruction.text).getD ""⟩

end ExportFailure
end OpenQasm
