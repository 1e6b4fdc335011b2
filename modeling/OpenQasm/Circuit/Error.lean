import OpenQasm.Circuit.Bit
import OpenQasm.Circuit.StandardGate

/-! What can be wrong with a request to build an operation or to change a circuit. -/
namespace OpenQasm

inductive CircuitError where
  | bitOutsideRegister (index : UInt64) (register : Register)
  | gateParameterCount (gate : StandardGate) (got : Nat)
  | unnamedGate
  | gateWithoutQubits (name : String)
  | emptyBarrier
  | emptyMeasurement
  | missingOperation
  | registerExists (register circuit : String)
  | qubitOutsideCircuit (index total : UInt64)
  | clbitOutsideCircuit (index total : UInt64)
  | qubitCount (operation : String) (required : UInt64) (got : Nat)
  | clbitCount (operation : String) (required : UInt64) (got : Nat)
  | operandKind (operation : String) (expected : BitKind) (bit : Bit)
  | operandRegisterMissing (operation : String) (bit : Bit) (circuit : String)
  | operandOutsideRegister (operation : String) (bit : Bit) (register : Register)
  | repeatedQubit (operation : String) (bit : Bit)
  | classicalBitsInGate (circuit : String)
  | argumentCount (circuit : String) (required got : Nat)
deriving DecidableEq, Repr

namespace CircuitError

/-- Whether a bit was asked for that does not exist, as opposed to an unusable argument. -/
def isRange : CircuitError → Bool
  | .bitOutsideRegister .. | .qubitOutsideCircuit .. | .clbitOutsideCircuit ..
  | .operandRegisterMissing .. | .operandOutsideRegister .. => true
  | _ => false

def message : CircuitError → String
  | .bitOutsideRegister index r =>
    "Bit index " ++ toString index.toNat ++ " out of range for " ++ r.kind.name ++
      " register '" ++ r.name ++ "' of size " ++ toString r.size.toNat
  | .gateParameterCount gate got =>
    "Gate " ++ gate.name ++ " requires " ++ toString gate.params ++ " parameter(s), got " ++
      toString got
  | .unnamedGate => "Opaque gate requires a name"
  | .gateWithoutQubits name => "Opaque gate '" ++ name ++ "' must act on at least 1 qubit"
  | .emptyBarrier => "Barrier must span at least 1 qubit"
  | .emptyMeasurement => "Measurement must have at least 1 qubit"
  | .missingOperation => "Instruction requires an operation"
  | .registerExists register circuit =>
    "Register '" ++ register ++ "' already exists in circuit '" ++ circuit ++ "'"
  | .qubitOutsideCircuit index total =>
    "Qubit index " ++ toString index.toNat ++ " out of range [0, " ++ toString total.toNat ++ ")"
  | .clbitOutsideCircuit index total =>
    "Clbit index " ++ toString index.toNat ++ " out of range [0, " ++ toString total.toNat ++ ")"
  | .qubitCount operation required got =>
    "Instruction " ++ operation ++ " requires " ++ toString required.toNat ++
      " qubit(s), got " ++ toString got
  | .clbitCount operation required got =>
    "Instruction " ++ operation ++ " requires " ++ toString required.toNat ++
      " clbit(s), got " ++ toString got
  | .operandKind operation expected bit =>
    "Instruction " ++ operation ++ " expects a " ++ expected.name ++ " operand, got " ++ bit.text
  | .operandRegisterMissing operation bit circuit =>
    "Instruction " ++ operation ++ " references " ++ bit.text ++ " but circuit '" ++ circuit ++
      "' has no such register"
  | .operandOutsideRegister operation bit r =>
    "Instruction " ++ operation ++ " references " ++ bit.text ++ " but register '" ++ r.name ++
      "' has only " ++ toString r.size.toNat ++ " bits"
  | .repeatedQubit operation bit =>
    "Instruction " ++ operation ++ " uses qubit " ++ bit.text ++ " more than once"
  | .classicalBitsInGate circuit =>
    "Circuit '" ++ circuit ++ "' has classical bits and cannot become a gate"
  | .argumentCount circuit required got =>
    "Circuit '" ++ circuit ++ "' takes " ++ toString required ++ " parameter(s), got " ++
      toString got

end CircuitError
end OpenQasm
