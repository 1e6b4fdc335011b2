/-! The gate `U` of the language and the gates of the standard include file. -/
namespace OpenQasm

inductive StandardGate where
  | U | p | x | y | z | h | s | sdg | t | tdg | sx | rx | ry | rz | id | u1 | u2 | u3
  | cx | cy | cz | cp | crx | cry | crz | ch | swap | cu | ccx | cswap
  | outside (code : Int)
deriving DecidableEq, Repr

namespace StandardGate

/-- The vocabulary in the order of its codes. -/
def vocabulary : List StandardGate :=
  [.U, .p, .x, .y, .z, .h, .s, .sdg, .t, .tdg, .sx, .rx, .ry, .rz, .id, .u1, .u2, .u3,
    .cx, .cy, .cz, .cp, .crx, .cry, .crz, .ch, .swap, .cu, .ccx, .cswap]

def name : StandardGate → String
  | .U => "U" | .p => "p" | .x => "x" | .y => "y" | .z => "z" | .h => "h"
  | .s => "s" | .sdg => "sdg" | .t => "t" | .tdg => "tdg" | .sx => "sx"
  | .rx => "rx" | .ry => "ry" | .rz => "rz" | .id => "id"
  | .u1 => "u1" | .u2 => "u2" | .u3 => "u3"
  | .cx => "cx" | .cy => "cy" | .cz => "cz" | .cp => "cp"
  | .crx => "crx" | .cry => "cry" | .crz => "crz" | .ch => "ch"
  | .swap => "swap" | .cu => "cu" | .ccx => "ccx" | .cswap => "cswap"
  | .outside _ => "unknown"

def qubits : StandardGate → Nat
  | .cx | .cy | .cz | .cp | .crx | .cry | .crz | .ch | .swap | .cu => 2
  | .ccx | .cswap => 3
  | _ => 1

def params : StandardGate → Nat
  | .p | .rx | .ry | .rz | .u1 | .cp | .crx | .cry | .crz => 1
  | .u2 => 2
  | .U | .u3 => 3
  | .cu => 4
  | _ => 0

/-- Whether the language itself has the gate, without any include file. -/
def inLanguage (g : StandardGate) : Bool := g == .U

def ofCode (code : Int) : StandardGate :=
  if code < 0 then .outside code else vocabulary[code.toNat]?.getD (.outside code)

def ofName? (name : String) : Option StandardGate := vocabulary.find? (·.name == name)

/-- The names that the standard include file provides. -/
def includedNames : List String := (vocabulary.filter fun g => !g.inLanguage).map name

end StandardGate
end OpenQasm
