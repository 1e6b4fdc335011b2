/-! Bits and registers, with sizes and indices that are 64-bit words. -/
namespace OpenQasm

inductive BitKind where
  | quantum
  | classical
  | outside (code : Int)
deriving DecidableEq, Repr

namespace BitKind

def ofCode (code : Int) : BitKind :=
  if code = 0 then .quantum else if code = 1 then .classical else .outside code

def name : BitKind → String
  | .quantum => "qubit"
  | .classical => "bit"
  | .outside _ => "unknown"

end BitKind

structure Bit where
  kind : BitKind
  register : Option String
  index : UInt64
deriving DecidableEq, Repr

namespace Bit

def isPhysical (b : Bit) : Bool := b.register.isNone

def text (b : Bit) : String :=
  match b.register with
  | some r => r ++ "[" ++ toString b.index.toNat ++ "]"
  | none => "$" ++ toString b.index.toNat

end Bit

structure Register where
  kind : BitKind
  name : String
  size : UInt64
deriving DecidableEq, Repr

namespace Register

def element (r : Register) (index : UInt64) : Bit := ⟨r.kind, some r.name, index⟩

def contains (r : Register) (b : Bit) : Bool :=
  b.kind == r.kind && b.register == some r.name && decide (b.index < r.size)

/-- The elements of a register in order. -/
def bits (r : Register) : List Bit :=
  (List.range r.size.toNat).map fun i => r.element (UInt64.ofNat i)

end Register
end OpenQasm
