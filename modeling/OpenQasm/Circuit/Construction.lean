import OpenQasm.InPlace
import OpenQasm.Circuit.Basic
import OpenQasm.Circuit.Error

/-! Making operations, which are told their identity, and changing circuits in place. -/
namespace OpenQasm

def Register.bit (r : Register) (index : UInt64) : Except CircuitError Bit :=
  if index < r.size then .ok (r.element index) else .error (.bitOutsideRegister index r)

namespace Operation

def ofStandard (id : OperationId) (gate : StandardGate) (params : List Parameter) :
    Except CircuitError Operation :=
  if params.length = gate.params then
    .ok
      { kind := .gate, name := gate.name, qubitCount := UInt64.ofNat gate.qubits, clbitCount := 0,
        params, body := none, standard := some gate, id }
  else .error (.gateParameterCount gate params.length)

/-- A gate of its own that has a name but no body. -/
def bodiless (id : OperationId) (name : String) (qubitCount : UInt64) (params : List Parameter) :
    Except CircuitError Operation :=
  if name.isEmpty then .error .unnamedGate
  else if qubitCount = 0 then .error (.gateWithoutQubits name)
  else
    .ok
      { kind := .gate, name, qubitCount, clbitCount := 0, params, body := none, standard := none,
        id }

def barrier (id : OperationId) (width : UInt64) : Except CircuitError Operation :=
  if width = 0 then .error .emptyBarrier
  else
    .ok
      { kind := .barrier, name := "barrier", qubitCount := width, clbitCount := 0, params := [],
        body := none, standard := none, id }

/-- A measurement of `width` qubits into as many classical bits. -/
def measurement (id : OperationId) (width : UInt64) : Except CircuitError Operation :=
  if width = 0 then .error .emptyMeasurement
  else
    .ok
      { kind := .measurement, name := "measure", qubitCount := width, clbitCount := width,
        params := [], body := none, standard := none, id }

end Operation

/-- An instruction, if there is an operation to place. -/
def Instruction.place (operation : Option Operation) (qubits clbits : List Bit)
    (condition : Option Condition) : Except CircuitError Instruction :=
  match operation with
  | none => .error .missingOperation
  | some operation => .ok ⟨operation, qubits, clbits, condition⟩

namespace Circuit

def empty (name : String) : Circuit := ⟨name, [], [], []⟩

/-- A circuit with a quantum register `q` and a classical register `c`, each left out when its
size is 0. -/
def ofSizes (name : String) (qubitCount clbitCount : UInt64) : Circuit :=
  { name
    qregs := if qubitCount = 0 then [] else [⟨.quantum, "q", qubitCount⟩]
    cregs := if clbitCount = 0 then [] else [⟨.classical, "c", clbitCount⟩]
    instructions := [] }

/-- The bit at an index that counts through the registers. -/
def bitAt? : List Register → UInt64 → Option Bit
  | [], _ => none
  | r :: rest, index =>
    if index < r.size then some (r.element index) else bitAt? rest (index - r.size)

def qubit (c : Circuit) (index : UInt64) : Except CircuitError Bit :=
  match bitAt? c.qregs index with
  | some b => .ok b
  | none => .error (.qubitOutsideCircuit index c.qubitCount)

def clbit (c : Circuit) (index : UInt64) : Except CircuitError Bit :=
  match bitAt? c.cregs index with
  | some b => .ok b
  | none => .error (.clbitOutsideCircuit index c.clbitCount)

/-- All qubits of the circuit, register by register. -/
def allQubits (c : Circuit) : List Bit := c.qregs.flatMap Register.bits

/-- Accepts an operand of the expected kind that is physical or in a register of that kind. -/
def checkOperand (c : Circuit) (operation : String) (expected : BitKind) (b : Bit) :
    Except CircuitError Unit :=
  if b.kind ≠ expected then .error (.operandKind operation expected b)
  else match b.register with
    | none => .ok ()
    | some name =>
      match c.register? name with
      | none => .error (.operandRegisterMissing operation b c.name)
      | some r =>
        if r.kind ≠ expected then .error (.operandRegisterMissing operation b c.name)
        else if r.contains b then .ok ()
        else .error (.operandOutsideRegister operation b r)

/-- Accepts qubits that are each usable and differ from those `seen` before. -/
def checkQubits (c : Circuit) (operation : String) : List Bit → List Bit → Except CircuitError Unit
  | _, [] => .ok ()
  | seen, b :: rest =>
    match c.checkOperand operation .quantum b with
    | .error e => .error e
    | .ok () =>
      if b ∈ seen then .error (.repeatedQubit operation b)
      else c.checkQubits operation (b :: seen) rest

def checkClbits (c : Circuit) (operation : String) : List Bit → Except CircuitError Unit
  | [] => .ok ()
  | b :: rest =>
    match c.checkOperand operation .classical b with
    | .error e => .error e
    | .ok () => c.checkClbits operation rest

def checkInstruction (c : Circuit) (i : Instruction) : Except CircuitError Unit :=
  let op := i.operation
  if i.qubits.length ≠ op.qubitCount.toNat then
    .error (.qubitCount op.name op.qubitCount i.qubits.length)
  else if i.clbits.length ≠ op.clbitCount.toNat then
    .error (.clbitCount op.name op.clbitCount i.clbits.length)
  else
    match c.checkQubits op.name [] i.qubits with
    | .error e => .error e
    | .ok () => c.checkClbits op.name i.clbits

/-- A change of a circuit in place. -/
abbrev Edit := InPlace CircuitError Circuit Unit

namespace Edit

/-- Adds a register. All that is not quantum is kept with the classical registers. -/
def declare (r : Register) : Edit := do
  let c ← get
  if (c.register? r.name).isSome then
    throw (.registerExists r.name c.name)
  else if r.kind = .quantum then
    set { c with qregs := c.qregs ++ [r] }
  else
    set { c with cregs := c.cregs ++ [r] }

/-- Adds an instruction at the end. The condition is left to the export. -/
def append (i : Instruction) : Edit := do
  let c ← get
  ofExcept (c.checkInstruction i)
  set { c with instructions := c.instructions ++ [i] }

def place (operation : Option Operation) (qubits clbits : List Bit)
    (condition : Option Condition) : Edit := do
  append (← ofExcept (Instruction.place operation qubits clbits condition))

def applyGate (id : OperationId) (gate : StandardGate) (qubits : List Bit)
    (params : List Parameter) : Edit := do
  place (some (← ofExcept (Operation.ofStandard id gate params))) qubits [] none

def measure (id : OperationId) (qubit clbit : Bit) : Edit := do
  place (some (← ofExcept (Operation.measurement id 1))) [qubit] [clbit] none

def barrier (id : OperationId) (qubits : List Bit) : Edit := do
  place (some (← ofExcept (Operation.barrier id (UInt64.ofNat qubits.length)))) qubits [] none

def barrierAll (id : OperationId) : Edit := do
  barrier id (← get).allQubits

end Edit

/-- The circuit to which a change leads, or the error with which it fails. -/
def edited (c : Circuit) (edit : Edit) : Except CircuitError Circuit :=
  match edit.run c with
  | .ok _ d => .ok d
  | .error e _ => .error e

def declare (c : Circuit) (r : Register) : Except CircuitError Circuit :=
  c.edited (Edit.declare r)

def append (c : Circuit) (i : Instruction) : Except CircuitError Circuit :=
  c.edited (Edit.append i)

def place (c : Circuit) (operation : Option Operation) (qubits clbits : List Bit)
    (condition : Option Condition) : Except CircuitError Circuit :=
  c.edited (Edit.place operation qubits clbits condition)

def applyGate (c : Circuit) (id : OperationId) (gate : StandardGate) (qubits : List Bit)
    (params : List Parameter) : Except CircuitError Circuit :=
  c.edited (Edit.applyGate id gate qubits params)

def measure (c : Circuit) (id : OperationId) (qubit clbit : Bit) : Except CircuitError Circuit :=
  c.edited (Edit.measure id qubit clbit)

def barrier (c : Circuit) (id : OperationId) (qubits : List Bit) : Except CircuitError Circuit :=
  c.edited (Edit.barrier id qubits)

def barrierAll (c : Circuit) (id : OperationId) : Except CircuitError Circuit :=
  c.edited (Edit.barrierAll id)

/-- Reading the circuit first changes nothing. -/
theorem edited_get_bind (c : Circuit) (f : Circuit → Edit) :
    c.edited (get >>= f) = c.edited (f c) := rfl

/-- What is made before a change is made first. -/
theorem edited_ofExcept_bind {α : Type} (c : Circuit) (x : Except CircuitError α) (f : α → Edit) :
    c.edited (ofExcept x >>= f) = x >>= fun a => c.edited (f a) := by
  cases x <;> rfl

theorem declare_eq (c : Circuit) (r : Register) :
    c.declare r =
      if (c.register? r.name).isSome then .error (.registerExists r.name c.name)
      else if r.kind = .quantum then .ok { c with qregs := c.qregs ++ [r] }
      else .ok { c with cregs := c.cregs ++ [r] } := by
  rw [declare, Edit.declare, edited_get_bind]
  split
  · rfl
  · split <;> rfl

theorem append_eq (c : Circuit) (i : Instruction) :
    c.append i = c.checkInstruction i >>= fun _ =>
      .ok { c with instructions := c.instructions ++ [i] } := by
  rw [append, Edit.append, edited_get_bind, edited_ofExcept_bind]
  rfl

theorem append_eq_ok {c d : Circuit} {i : Instruction} :
    c.append i = .ok d ↔
      c.checkInstruction i = .ok () ∧ d = { c with instructions := c.instructions ++ [i] } := by
  rw [append_eq]
  cases c.checkInstruction i with
  | error e => simp [bind, Except.bind]
  | ok u => simp [bind, Except.bind, eq_comm]

theorem place_eq (c : Circuit) (operation : Option Operation) (qubits clbits : List Bit)
    (condition : Option Condition) :
    c.place operation qubits clbits condition =
      Instruction.place operation qubits clbits condition >>= c.append :=
  c.edited_ofExcept_bind _ _

theorem edited_eq_ok {c d : Circuit} {edit : Edit} :
    c.edited edit = .ok d ↔ edit.error? c = none ∧ edit.after c = d := by
  unfold edited InPlace.error? InPlace.after
  cases edit.run c <;> simp

theorem edited_eq_error {c : Circuit} {edit : Edit} {e : CircuitError} :
    c.edited edit = .error e ↔ edit.error? c = some e := by
  unfold edited InPlace.error?
  cases edit.run c <;> simp

/-- An operation with the circuit as its body. It is called with the given arguments, one for
each symbol of the circuit, or with the symbols themselves. -/
def asOperation (c : Circuit) (id : OperationId) (kind : OperationKind)
    (arguments : Option (List Parameter)) : Except CircuitError Operation :=
  let made (params : List Parameter) : Operation :=
    { kind, name := c.name, qubitCount := c.qubitCount, clbitCount := c.clbitCount, params,
      body := some c, standard := none, id }
  match arguments with
  | none => .ok (made (c.symbols.map .symbol))
  | some params =>
    if params.length = c.symbols.length then .ok (made params)
    else .error (.argumentCount c.name c.symbols.length params.length)

def asGate (c : Circuit) (id : OperationId) (arguments : Option (List Parameter)) :
    Except CircuitError Operation :=
  if c.clbitCount = 0 then c.asOperation id .gate arguments
  else .error (.classicalBitsInGate c.name)

def asSubroutine (c : Circuit) (id : OperationId) (arguments : Option (List Parameter)) :
    Except CircuitError Operation :=
  c.asOperation id .subroutine arguments

end Circuit
end OpenQasm
