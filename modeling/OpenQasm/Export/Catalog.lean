import OpenQasm.Export.Scope

/-! The definitions that a program needs, callees first. What was collected before a failure
stays. -/
namespace OpenQasm

inductive DefinitionKind where
  | gate | subroutine | bodiless
  | outside (code : Int)
deriving DecidableEq, Repr

namespace DefinitionKind

def ofCode (code : Int) : DefinitionKind :=
  if code < 0 then .outside code
  else match code.toNat with
    | 0 => .gate
    | 1 => .subroutine
    | 2 => .bodiless
    | _ => .outside code

def name : DefinitionKind → String
  | .gate => "gate"
  | .subroutine => "subroutine"
  | .bodiless => "opaque"
  | .outside _ => "unknown"

end DefinitionKind

/-- How an operation is defined: by a body that is a gate or a subroutine, or by its signature
alone. -/
inductive DefinitionForm where
  | gate (body : Circuit)
  | subroutine (body : Circuit)
  | bodiless

def DefinitionForm.kind : DefinitionForm → DefinitionKind
  | .gate _ => .gate
  | .subroutine _ => .subroutine
  | .bodiless => .bodiless

structure Definition where
  operation : Operation
  form : DefinitionForm
  name : String

structure Catalog where
  scope : Scope
  definitions : List Definition

/-- The catalog after a walk and the error that ended it, if one did. -/
structure Collected where
  catalog : Catalog
  failure : Option ExportFailure

namespace Catalog

def ofScope (s : Scope) : Catalog := ⟨s, []⟩

def define (c : Catalog) (op : Operation) (form : DefinitionForm) : Collected :=
  match (Scope.registration op).run c.scope with
  | .ok name scope => ⟨⟨scope, c.definitions ++ [⟨op, form, name⟩]⟩, none⟩
  | .error fault scope => ⟨{ c with scope }, some (.general fault)⟩

/-- A definition that fails leaves the catalog as it was, since a registration does so. -/
theorem define_eq (c : Catalog) (op : Operation) (form : DefinitionForm) :
    c.define op form =
      match c.scope.register op with
      | .ok (scope, name) => ⟨⟨scope, c.definitions ++ [⟨op, form, name⟩]⟩, none⟩
      | .error fault => ⟨c, some (.general fault)⟩ := by
  unfold define Scope.register
  cases hrun : (Scope.registration op).run c.scope with
  | ok name scope => rfl
  | error fault scope =>
    obtain rfl := (Scope.atomic_registration op).eq_of_run hrun
    rfl

mutual

/-- Collects what one instruction needs. -/
def collect (c : Catalog) : Instruction → Collected
  | ⟨⟨kind, name, qubitCount, clbitCount, params, body, standard, id⟩, qubits, clbits,
      condition⟩ =>
    let op : Operation := ⟨kind, name, qubitCount, clbitCount, params, body, standard, id⟩
    match kind with
    | .barrier => ⟨c, none⟩
    | .measurement => ⟨c, none⟩
    | .outside _ => ⟨c, some (.inside .unknownKind ⟨op, qubits, clbits, condition⟩)⟩
    | .gate => c.collectOperation op .gate body
    | .subroutine => c.collectOperation op .subroutine body

/-- Collects the body of an operation and then the operation, unless it is known. -/
def collectOperation (c : Catalog) (op : Operation) (form : Circuit → DefinitionForm) :
    Option Circuit → Collected
  | none => if c.scope.knows op then ⟨c, none⟩ else c.define op .bodiless
  | some ⟨name, qregs, cregs, instructions⟩ =>
    if c.scope.knows op then ⟨c, none⟩
    else
      match c.collectAll instructions with
      | ⟨inner, none⟩ => inner.define op (form ⟨name, qregs, cregs, instructions⟩)
      | failed => failed

/-- Collects what the instructions need, in order, up to the first error. -/
def collectAll (c : Catalog) : List Instruction → Collected
  | [] => ⟨c, none⟩
  | i :: rest =>
    match c.collect i with
    | ⟨next, none⟩ => next.collectAll rest
    | failed => failed

end

@[simp] theorem collectAll_nil (c : Catalog) : c.collectAll [] = ⟨c, none⟩ := rfl

theorem collectAll_append (c : Catalog) (xs ys : List Instruction) :
    c.collectAll (xs ++ ys) =
      match c.collectAll xs with
      | ⟨next, none⟩ => next.collectAll ys
      | failed => failed := by
  induction xs generalizing c with
  | nil => rfl
  | cons i rest ih =>
    rw [List.cons_append, collectAll, collectAll]
    rcases c.collect i with ⟨next, _ | e⟩
    · exact ih next
    · rfl

end Catalog
end OpenQasm
