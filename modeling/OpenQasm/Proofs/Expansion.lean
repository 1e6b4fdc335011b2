import OpenQasm.Proofs.Resolution

/-! Programs with the bodies of blocks in place of calls, and circuits with the bodies of
operations in place of instructions. -/
namespace OpenQasm

/-- A gate or subroutine with a body. -/
structure Block where
  name : String
  params : List String
  qubits : List String
  body : List Statement

namespace ProgramItem

def block? : ProgramItem → Option Block
  | .gate s body => some ⟨s.name, s.params, s.qubits, body⟩
  | .subroutine s body => some ⟨s.name, s.params, s.qubits.map (·.name), body⟩
  | _ => none

def statement? : ProgramItem → Option Statement
  | .statement st => some st
  | _ => none

end ProgramItem

def Program.blocks (p : Program) : List Block := p.statements.filterMap ProgramItem.block?

/-- What the formal parameters and qubits of a block stand for in a call. -/
structure Binding where
  params : List (String × Expression)
  qubits : List (String × Operand)

def Block.bind (b : Block) (call : Call) : Binding :=
  ⟨b.params.zip call.params, b.qubits.zip call.qubits⟩

/-- Formal qubits are names without an index. -/
def Operand.instantiate (a : Binding) : Operand → Operand
  | ⟨name, none⟩ => (a.qubits.lookup name).getD ⟨name, none⟩
  | ⟨name, some index⟩ => ⟨name, some index⟩

def Expression.instantiate (a : Binding) : Expression → Expression
  | .integer value => .integer value
  | .real value fold => .real value fold
  | .identifier name => (a.params.lookup name).getD (.identifier name)
  | .operand o => .operand (o.instantiate a)

def Call.instantiate (a : Binding) (c : Call) : Call :=
  ⟨c.name, c.params.map (·.instantiate a), c.qubits.map (·.instantiate a)⟩

mutual

/-- Puts the arguments in place of the formals, all at once. -/
def Statement.instantiate (a : Binding) : Statement → Statement
  | .gateCall call => .gateCall (call.instantiate a)
  | .subroutineCall call => .subroutineCall (call.instantiate a)
  | .barrier qubits => .barrier (qubits.map (·.instantiate a))
  | .measure target qubits => .measure (target.instantiate a) (qubits.map (·.instantiate a))
  | .branch test body =>
    .branch ⟨test.left.instantiate a, test.right.instantiate a⟩ (instantiateAll a body)

def instantiateAll (a : Binding) : List Statement → List Statement
  | [] => []
  | st :: rest => st.instantiate a :: instantiateAll a rest

end

inductive Action where
  | call (kind : CallKind) (call : Call)
  | barrier (qubits : List Operand)
  | measure (target : Operand) (qubits : List Operand)
deriving DecidableEq, Repr

/-- An action and the tests it is under, the outermost first. -/
structure Primitive where
  guards : List Equality
  action : Action
deriving DecidableEq, Repr

def Primitive.under (test : Equality) (s : Primitive) : Primitive :=
  { s with guards := test :: s.guards }

mutual

/-- The primitives of a statement, given those of its calls. -/
def Statement.expand (call : CallKind → Call → Option (List Primitive)) :
    Statement → Option (List Primitive)
  | .gateCall c => call .gate c
  | .subroutineCall c => call .subroutine c
  | .barrier qubits => some [⟨[], .barrier qubits⟩]
  | .measure target qubits => some [⟨[], .measure target qubits⟩]
  | .branch test body => (expandAll call body).map (·.map (Primitive.under test))

def expandAll (call : CallKind → Call → Option (List Primitive)) :
    List Statement → Option (List Primitive)
  | [] => some []
  | st :: rest => do
    let first ← st.expand call
    let others ← expandAll call rest
    return first ++ others

end

/-- The primitives of a call. A call of a block is replaced by the body of the block; there are
none when calls are nested deeper than the fuel allows or the arguments do not fit. -/
def expandCall (blocks : List Block) : Nat → CallKind → Call → Option (List Primitive)
  | 0, kind, call =>
    match blocks.find? (·.name == call.name) with
    | none => some [⟨[], .call kind call⟩]
    | some _ => none
  | fuel + 1, kind, call =>
    match blocks.find? (·.name == call.name) with
    | none => some [⟨[], .call kind call⟩]
    | some b =>
      if b.params.length = call.params.length ∧ b.qubits.length = call.qubits.length then
        expandAll (expandCall blocks fuel) (instantiateAll (b.bind call) b.body)
      else none

/-- The primitives of the statements of a program, in order. -/
def Program.expand (p : Program) (fuel : Nat) : Option (List Primitive) :=
  expandAll (expandCall p.blocks fuel) (p.statements.filterMap ProgramItem.statement?)

theorem expandCall_of_no_block {blocks : List Block} {call : Call}
    (h : blocks.find? (·.name == call.name) = none) (fuel : Nat) (kind : CallKind) :
    expandCall blocks fuel kind call = some [⟨[], .call kind call⟩] := by
  cases fuel <;> simp [expandCall, h]

theorem expandCall_of_block {blocks : List Block} {call : Call} {b : Block}
    (h : blocks.find? (·.name == call.name) = some b)
    (hparams : b.params.length = call.params.length)
    (hqubits : b.qubits.length = call.qubits.length) (fuel : Nat) (kind : CallKind) :
    expandCall blocks (fuel + 1) kind call =
      expandAll (expandCall blocks fuel) (instantiateAll (b.bind call) b.body) := by
  simp [expandCall, h, hparams, hqubits]

theorem expandAll_cons_eq_some {call : CallKind → Call → Option (List Primitive)}
    {st : Statement} {rest : List Statement} {first others : List Primitive}
    (hst : st.expand call = some first) (hrest : expandAll call rest = some others) :
    expandAll call (st :: rest) = some (first ++ others) := by
  simp [expandAll, hst, hrest]

/-- What the qubits and symbols of a body stand for where its operation is placed. -/
structure Frame where
  qubits : List (Bit × Bit)
  symbols : List (String × Parameter)

namespace Frame

/-- At the top level everything stands for itself. -/
def outermost : Frame := ⟨[], []⟩

def bit (f : Frame) (b : Bit) : Bit := (f.qubits.lookup b).getD b

def parameter (f : Frame) : Parameter → Parameter
  | .value x => .value x
  | .symbol name => (f.symbols.lookup name).getD (.symbol name)

/-- The frame of a body that is placed with the given parameters on the given qubits. -/
def ofBody (body : Circuit) (params : List Parameter) (qubits : List Bit) : Frame :=
  ⟨body.allQubits.zip qubits, body.symbols.zip params⟩

@[simp] theorem bit_outermost (b : Bit) : outermost.bit b = b := rfl

@[simp] theorem parameter_outermost (p : Parameter) : outermost.parameter p = p := by
  cases p <;> rfl

end Frame

/-- An operation without a body, placed on bits of the outermost circuit with parameters of that
circuit, and the conditions it is under, the outermost first. -/
structure Placement where
  conditions : List Condition
  operation : Operation
  params : List Parameter
  qubits : List Bit
  clbits : List Bit

def Placement.under (condition : Option Condition) (s : Placement) : Placement :=
  { s with conditions := condition.toList ++ s.conditions }

mutual

/-- What an instruction consists of after its operation is replaced by its body, at any depth. -/
def Instruction.flatten (f : Frame) : Instruction → List Placement
  | ⟨⟨kind, name, qubitCount, clbitCount, params, body, standard, id⟩, qubits, clbits,
      condition⟩ =>
    (flattenOperation f ⟨kind, name, qubitCount, clbitCount, params, body, standard, id⟩
      qubits clbits body).map (Placement.under condition)

def flattenOperation (f : Frame) (op : Operation) (qubits clbits : List Bit) :
    Option Circuit → List Placement
  | none => [⟨[], op, op.params.map f.parameter, qubits.map f.bit, clbits.map f.bit⟩]
  | some ⟨name, qregs, cregs, instructions⟩ =>
    flattenAll (.ofBody ⟨name, qregs, cregs, instructions⟩ (op.params.map f.parameter)
      (qubits.map f.bit)) instructions

def flattenAll (f : Frame) : List Instruction → List Placement
  | [] => []
  | i :: rest => i.flatten f ++ flattenAll f rest

end

theorem flatten_of_bodiless {i : Instruction} (hb : i.operation.body = none) (f : Frame) :
    i.flatten f = [Placement.under i.condition ⟨[], i.operation, i.operation.params.map f.parameter,
      i.qubits.map f.bit, i.clbits.map f.bit⟩] := by
  obtain ⟨⟨kind, name, qubitCount, clbitCount, params, body, standard, id⟩, qubits, clbits,
    condition⟩ := i
  obtain rfl : body = none := hb
  rw [Instruction.flatten, flattenOperation]
  rfl

theorem flatten_of_body {i : Instruction} {b : Circuit} (hb : i.operation.body = some b)
    (f : Frame) :
    i.flatten f = (flattenAll (.ofBody b (i.operation.params.map f.parameter)
      (i.qubits.map f.bit)) b.instructions).map (Placement.under i.condition) := by
  obtain ⟨⟨kind, name, qubitCount, clbitCount, params, body, standard, id⟩, qubits, clbits,
    condition⟩ := i
  obtain rfl : body = some b := hb
  obtain ⟨bname, qregs, cregs, instructions⟩ := b
  rw [Instruction.flatten, flattenOperation]

/-- The circuit with all bodies in place of the operations that have them. -/
def Circuit.flatten (c : Circuit) : List Placement := flattenAll .outermost c.instructions

/-- An element of its register, or a physical bit by its number. -/
def Bit.reference (b : Bit) : Operand :=
  match b.register with
  | some register => ⟨register, some b.index⟩
  | none => ⟨"$" ++ toString b.index.toNat, none⟩

/-- The argument that a parameter is: a number is a literal, and a symbol goes by its name. -/
def Parameter.argument (fold : Bool) : Parameter → Expression
  | .value x => .real x fold
  | .symbol name => .identifier name

def Condition.equation? (cond : Condition) : Option Equality :=
  if cond.comparison = .equal then
    match cond.target with
    | .register r => some ⟨.identifier r.name, .integer cond.value⟩
    | .bit b => some ⟨.operand b.reference, .integer cond.value⟩
  else none

namespace Placement

def call (name? : Operation → Option String) (fold : Bool) (s : Placement) (kind : CallKind) :
    Option Action :=
  (name? s.operation).map fun name =>
    .call kind ⟨name, s.params.map (Parameter.argument fold), s.qubits.map Bit.reference⟩

def action? (name? : Operation → Option String) (fold : Bool) (s : Placement) : Option Action :=
  match s.operation.kind with
  | .gate => s.call name? fold .gate
  | .subroutine => s.call name? fold .subroutine
  | .barrier => some (.barrier (s.qubits.map Bit.reference))
  | .measurement =>
    match s.clbits with
    | [b] => some (.measure b.reference (s.qubits.map Bit.reference))
    | _ => none
  | .outside _ => none

/-- The primitive of a placement, with operations called by the given names. -/
def primitive? (name? : Operation → Option String) (fold : Bool) (s : Placement) :
    Option Primitive := do
  let guards ← s.conditions.mapM Condition.equation?
  let action ← s.action? name? fold
  return ⟨guards, action⟩

theorem primitive?_eq_some {name? : Operation → Option String} {fold : Bool} {s : Placement}
    {t : Primitive} :
    s.primitive? name? fold = some t ↔
      s.conditions.mapM Condition.equation? = some t.guards ∧
        s.action? name? fold = some t.action := by
  simp only [primitive?, Option.bind_eq_bind, Option.bind_eq_some_iff]
  constructor
  · rintro ⟨guards, hg, action, ha, ht⟩
    obtain rfl := Option.some.inj ht
    exact ⟨hg, ha⟩
  · rintro ⟨hg, ha⟩
    exact ⟨t.guards, hg, t.action, ha, rfl⟩

theorem primitive?_under_some {name? : Operation → Option String} {fold : Bool} {s : Placement}
    {cond : Condition} {test : Equality} {t : Primitive} (htest : cond.equation? = some test)
    (h : s.primitive? name? fold = some t) :
    (s.under (some cond)).primitive? name? fold = some (t.under test) := by
  obtain ⟨hg, ha⟩ := primitive?_eq_some.mp h
  refine primitive?_eq_some.mpr ⟨?_, ha⟩
  simp [under, Primitive.under, htest, hg]

end Placement
end OpenQasm
