import OpenQasm.Binary64

/-! OpenQASM 3 programs: a header and a list of global statements. -/
namespace OpenQasm

/-- A name with an optional index, such as `q[0]`. -/
structure Operand where
  name : String
  index : Option UInt64
deriving DecidableEq, Repr

/-- A real literal notes whether its text may show a multiple of pi. -/
inductive Expression where
  | integer (value : Int)
  | real (value : Binary64) (fold : Bool)
  | identifier (name : String)
  | operand (o : Operand)
deriving DecidableEq, Repr

/-- The test of a branch, always an equality. -/
structure Equality where
  left : Expression
  right : Expression
deriving DecidableEq, Repr

structure Call where
  name : String
  params : List Expression
  qubits : List Operand
deriving DecidableEq, Repr

inductive Statement where
  | gateCall (call : Call)
  | subroutineCall (call : Call)
  | barrier (qubits : List Operand)
  | measure (target : Operand) (qubits : List Operand)
  | branch (test : Equality) (body : List Statement)

/-- The name, the formal parameters and the formal qubits of a gate. -/
structure Signature where
  name : String
  params : List String
  qubits : List String
deriving DecidableEq, Repr

/-- A formal qubit of a subroutine, or a formal register if it has a size. -/
structure QubitArgument where
  name : String
  size : Option UInt64
deriving DecidableEq, Repr

structure SubroutineSignature where
  name : String
  params : List String
  qubits : List QubitArgument
deriving DecidableEq, Repr

inductive Storage where
  | bit | qubit
deriving DecidableEq, Repr

inductive ProgramItem where
  | gate (signature : Signature) (body : List Statement)
  | subroutine (signature : SubroutineSignature) (body : List Statement)
  | bodilessGate (signature : Signature)
  | register (storage : Storage) (name : String) (size : UInt64)
  | input (name : String)
  | statement (s : Statement)

structure Header where
  version : String
  includes : List String
deriving DecidableEq, Repr

structure Program where
  header : Header
  statements : List ProgramItem

/-- The version of the language that programs are written in. -/
def languageVersion : String := "3"

def Program.empty : Program := ⟨⟨languageVersion, []⟩, []⟩

end OpenQasm
