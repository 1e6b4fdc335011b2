import OpenQasm.Decimal
import OpenQasm.Circuit.Bit
import OpenQasm.Circuit.StandardGate

/-! Operations, instructions and circuits. Two operations that look alike differ when their
identities do. -/
namespace OpenQasm

inductive Parameter where
  | value (x : Binary64)
  | symbol (name : String)
deriving DecidableEq, Repr

namespace Parameter

def symbol? : Parameter → Option String
  | .value _ => none
  | .symbol name => some name

def text : Parameter → String
  | .value x => x.sixPlaces
  | .symbol name => name

end Parameter

inductive Comparison where
  | equal | notEqual | less | lessEqual | greater | greaterEqual
  | outside (code : Int)
deriving DecidableEq, Repr

namespace Comparison

def ofCode (code : Int) : Comparison :=
  if code < 0 then .outside code
  else match code.toNat with
    | 0 => .equal
    | 1 => .notEqual
    | 2 => .less
    | 3 => .lessEqual
    | 4 => .greater
    | 5 => .greaterEqual
    | _ => .outside code

def symbol : Comparison → String
  | .equal => "=="
  | .notEqual => "!="
  | .less => "<"
  | .lessEqual => "<="
  | .greater => ">"
  | .greaterEqual => ">="
  | .outside _ => "?"

end Comparison

inductive ConditionTarget where
  | register (r : Register)
  | bit (b : Bit)
deriving DecidableEq, Repr

def ConditionTarget.text : ConditionTarget → String
  | .register r => r.name
  | .bit b => b.text

/-- A comparison of classical storage with a number, which guards an instruction. -/
structure Condition where
  target : ConditionTarget
  comparison : Comparison
  value : Int
deriving DecidableEq, Repr

def Condition.text (c : Condition) : String :=
  c.target.text ++ " " ++ c.comparison.symbol ++ " " ++ toString c.value

inductive OperationKind where
  | gate | barrier | measurement | subroutine
  | outside (code : Int)
deriving DecidableEq, Repr

namespace OperationKind

def ofCode (code : Int) : OperationKind :=
  if code < 0 then .outside code
  else match code.toNat with
    | 0 => .gate
    | 1 => .barrier
    | 2 => .measurement
    | 3 => .subroutine
    | _ => .outside code

def name : OperationKind → String
  | .gate => "gate"
  | .barrier => "barrier"
  | .measurement => "measurement"
  | .subroutine => "subroutine"
  | .outside _ => "unknown"

end OperationKind

abbrev OperationId := Nat

mutual

structure Operation where
  kind : OperationKind
  name : String
  qubitCount : UInt64
  clbitCount : UInt64
  params : List Parameter
  body : Option Circuit
  standard : Option StandardGate
  id : OperationId

structure Instruction where
  operation : Operation
  qubits : List Bit
  clbits : List Bit
  condition : Option Condition

structure Circuit where
  name : String
  qregs : List Register
  cregs : List Register
  instructions : List Instruction

end

namespace Operation

def text (op : Operation) : String :=
  if op.params.isEmpty then op.name
  else op.name ++ "(" ++ String.intercalate ", " (op.params.map Parameter.text) ++ ")"

end Operation

namespace Instruction

def unguarded (i : Instruction) : Instruction := { i with condition := none }

def text (i : Instruction) : String :=
  let operands := (i.qubits ++ i.clbits).map Bit.text
  let placed :=
    if operands.isEmpty then i.operation.text
    else i.operation.text ++ " " ++ String.intercalate ", " operands
  match i.condition with
  | none => placed
  | some c => placed ++ " if (" ++ c.text ++ ")"

/-- Whether two instructions place one operation on the same bits. -/
def samePlacement (i j : Instruction) : Bool :=
  i.operation.id == j.operation.id && i.qubits == j.qubits && i.clbits == j.clbits

end Instruction

namespace Circuit

/-- The number of bits of some registers, a sum of words. -/
def sizeSum (regs : List Register) : UInt64 := regs.foldl (fun total r => total + r.size) 0

def qubitCount (c : Circuit) : UInt64 := sizeSum c.qregs

def clbitCount (c : Circuit) : UInt64 := sizeSum c.cregs

/-- The register of a name, looked up among the quantum registers first. -/
def register? (c : Circuit) (name : String) : Option Register :=
  (c.qregs ++ c.cregs).find? (·.name == name)

/-- The symbols among the parameters of the circuit's own instructions, each once, in order of
first use. -/
def symbols (c : Circuit) : List String :=
  (c.instructions.flatMap fun i => i.operation.params.filterMap Parameter.symbol?).eraseDups

/-- Whether two circuits place the same operations in the same order. -/
def sharesOperations (c d : Circuit) : Bool :=
  c.instructions.map (·.operation.id) == d.instructions.map (·.operation.id)

def text (c : Circuit) : String :=
  let header := "Circuit '" ++ c.name ++ "' (" ++ toString c.qubitCount.toNat ++ " qubits, " ++
    toString c.clbitCount.toNat ++ " clbits, " ++ toString c.instructions.length ++
    " instructions):\n"
  header ++ String.join (c.instructions.map fun i => "  " ++ i.text ++ "\n")

end Circuit
end OpenQasm
