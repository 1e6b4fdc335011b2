import OpenQasm.InPlace
import OpenQasm.Export.Error

/-! The names of a program's global scope: words, included gates, reserved names and the
operations registered so far. -/
namespace OpenQasm

/-- Words of the language, which can name no definition. -/
def reservedWords : List String :=
  ["OPENQASM", "include", "gate", "def", "opaque", "if", "else", "return", "input", "qubit",
    "bit", "float", "measure", "barrier", "U", "pi"]

/-- The include file that provides the standard gates. -/
def standardInclude : String := "stdgates.inc"

/-- What distinguishes operations in a scope: the name of a standard gate, the identity of any
other operation. -/
inductive OperationKey where
  | standard (name : String)
  | custom (id : OperationId)
deriving DecidableEq, Repr

def Operation.key (op : Operation) : OperationKey :=
  if op.standard.isSome then .standard op.name else .custom op.id

structure ScopeEntry where
  key : OperationKey
  name : String
deriving DecidableEq, Repr

structure Scope where
  hasStandardGates : Bool
  reserved : List String
  entries : List ScopeEntry
deriving DecidableEq, Repr

namespace Scope

def ofIncludes (includes : List String) : Scope :=
  ⟨includes.contains standardInclude, [], []⟩

/-- The names of the included standard gates. -/
def includedNames (s : Scope) : List String :=
  if s.hasStandardGates then StandardGate.includedNames else []

def boundNames (s : Scope) : List String :=
  reservedWords ++ s.includedNames ++ s.reserved ++ s.entries.map (·.name)

def binds (s : Scope) (name : String) : Bool := s.boundNames.contains name

/-- The number of registered operations. -/
def size (s : Scope) : Nat := s.entries.length

/-- Binds a name to something other than an operation, unless it is bound already. -/
def reserve (s : Scope) (name : String) : Scope :=
  if s.binds name then s else { s with reserved := s.reserved ++ [name] }

theorem binds_iff {s : Scope} {name : String} : s.binds name = true ↔ name ∈ s.boundNames := by
  simp [binds]

@[simp] theorem size_reserve (s : Scope) (name : String) : (s.reserve name).size = s.size := by
  unfold reserve
  split <;> rfl

/-- Reserving a name binds that name and no other. -/
theorem binds_reserve (s : Scope) (name other : String) :
    (s.reserve name).binds other = (s.binds other || other == name) := by
  unfold reserve
  split
  · rename_i h
    by_cases ho : other = name
    · simp [ho, h]
    · simp [ho]
  · rw [Bool.eq_iff_iff, Bool.or_eq_true, binds_iff, binds_iff]
    simp only [boundNames, includedNames, List.mem_append, List.mem_singleton, beq_iff_eq]
    grind

@[simp] theorem reserve_reserve (s : Scope) (name : String) :
    (s.reserve name).reserve name = s.reserve name := by
  have h : (s.reserve name).binds name = true := by simp [binds_reserve]
  rw [reserve, if_pos h]

/-- Whether the operation needs no definition: the universal gate or an included one. -/
def provides (s : Scope) (op : Operation) : Bool :=
  op.standard == some .U || (op.standard.isSome && s.includedNames.contains op.name)

def slot? (s : Scope) (op : Operation) : Option Nat := s.entries.findIdx? (·.key == op.key)

/-- The name under which the operation is called, if it has one. -/
def name? (s : Scope) (op : Operation) : Option String :=
  if s.provides op then some op.name
  else (s.entries.find? (·.key == op.key)).map (·.name)

/-- Whether the operation is provided or registered. -/
def knows (s : Scope) (op : Operation) : Bool := s.provides op || (s.slot? op).isSome

def resolve (s : Scope) (op : Operation) : Except Fault String :=
  match s.name? op with
  | some name => .ok name
  | none => .error (.undefinedOperation op.name)

/-- Appends the suffix until the name is free, at most as often as `tries` allows. -/
def firstFree (s : Scope) (suffix : String) : Nat → String → String
  | 0, name => name
  | tries + 1, name => if s.binds name then s.firstFree suffix tries (name ++ suffix) else name

/-- A free name for the operation of the next slot. Every failed try uses up another bound
name, so there is a free one among as many tries as there are bound names. -/
def freshName (s : Scope) (name : String) : String :=
  s.firstFree ("_" ++ toString s.size) s.boundNames.length name

theorem firstFree_free (s : Scope) {suffix : String} (hs : suffix ≠ "") :
    ∀ (n : Nat) (bound : List String) (name : String), bound.length = n →
      (∀ m, s.binds m = true → name.length ≤ m.length → m ∈ bound) →
      s.binds (s.firstFree suffix n name) = false := by
  intro n
  induction n with
  | zero =>
    intro bound name hn hb
    obtain rfl := List.length_eq_zero_iff.mp hn
    have := hb name
    simpa [firstFree] using this
  | succ n ih =>
    intro bound name hn hb
    unfold firstFree
    split
    · rename_i hname
      have hmem := hb name hname (Nat.le_refl _)
      apply ih (bound.erase name)
      · rw [List.length_erase_of_mem hmem, hn, Nat.add_sub_cancel]
      · intro m hm hlen
        have hpos : 0 < suffix.length := Nat.pos_of_ne_zero (by simpa using hs)
        rw [String.length_append] at hlen
        refine (List.mem_erase_of_ne ?_).mpr (hb m hm (by omega))
        rintro rfl
        omega
    · rename_i hname
      simpa using hname

/-- A fresh name is not bound. -/
theorem binds_freshName (s : Scope) (name : String) : s.binds (s.freshName name) = false := by
  refine firstFree_free s ?_ _ s.boundNames name rfl fun m hm _ => binds_iff.mp hm
  intro h
  have := congrArg String.length h
  simp only [String.length_append] at this
  simp at this

/-- The scope with the operation in the next slot. -/
def enrol (s : Scope) (op : Operation) : Scope :=
  { s with entries := s.entries ++ [⟨op.key, s.freshName op.name⟩] }

/-- Gives the operation a name of its own in the next slot, unless it has one. -/
def registration (op : Operation) : InPlace Fault Scope String := do
  let s ← get
  if s.knows op then
    ofExcept (s.resolve op)
  else if op.name.isEmpty then
    throw (.unnamedOperation op.kind)
  else
    set (s.enrol op)
    return s.freshName op.name

/-- The scope to which a registration leads and the name that it gives. -/
def register (s : Scope) (op : Operation) : Except Fault (Scope × String) :=
  match (registration op).run s with
  | .ok name t => .ok (t, name)
  | .error fault _ => .error fault

theorem atomic_registration (op : Operation) : (registration op).Atomic := by
  apply InPlace.readOnly_get.bind_atomic
  intro s
  apply InPlace.Atomic.ite
  · exact (InPlace.readOnly_ofExcept _).atomic
  apply InPlace.Atomic.ite
  · exact (InPlace.readOnly_throw _).atomic
  · exact fun _ _ h => nomatch h

theorem register_eq (s : Scope) (op : Operation) :
    s.register op =
      if s.knows op then s.resolve op >>= fun name => .ok (s, name)
      else if op.name.isEmpty then .error (.unnamedOperation op.kind)
      else .ok (s.enrol op, s.freshName op.name) := by
  rw [register, registration, InPlace.run_get_bind]
  by_cases hknown : s.knows op = true
  · simp only [if_pos hknown]
    cases s.resolve op <;> rfl
  · simp only [if_neg hknown]
    by_cases hname : op.name.isEmpty = true
    · simp only [if_pos hname]
      rfl
    · simp only [if_neg hname]
      rfl

end Scope
end OpenQasm
