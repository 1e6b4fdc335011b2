import OpenQasm.Circuit.Construction
import OpenQasm.Export.Session

/-! Sample circuits and a transcript of their export. -/
namespace OpenQasm.Showcase

def q (index : UInt64) : Bit := ⟨.quantum, some "q", index⟩

def c (index : UInt64) : Bit := ⟨.classical, some "c", index⟩

/-- A Bell pair, measured. -/
def bell : Except CircuitError Circuit := do
  let circuit := Circuit.ofSizes "bell" 2 2
  let circuit ← circuit.applyGate 0 .h [q 0] []
  let circuit ← circuit.applyGate 1 .cx [q 0, q 1] []
  let circuit ← circuit.measure 2 (q 0) (c 0)
  circuit.measure 3 (q 1) (c 1)

def ghz : Except CircuitError Circuit := do
  let circuit := Circuit.ofSizes "ghz" 3 0
  let circuit ← circuit.applyGate 4 .h [q 0] []
  let circuit ← circuit.applyGate 5 .cx [q 0, q 1] []
  circuit.applyGate 6 .cx [q 1, q 2] []

/-- A gate of its own, used forwards and backwards around a barrier. -/
def ghzTwice : Except CircuitError Circuit := do
  let gate ← (← ghz).asGate 7 none
  let circuit := Circuit.ofSizes "circuit" 3 0
  let circuit ← circuit.place (some gate) [q 0, q 1, q 2] [] none
  let circuit ← circuit.barrierAll 8
  circuit.place (some gate) [q 2, q 1, q 0] [] none

/-- Rotations, an unbound parameter and a conditional correction. -/
def feedback : Except CircuitError Circuit := do
  let circuit := Circuit.ofSizes "feedback" 2 1
  let quarter := Binary64.pi.div (.ofInt 4)
  let circuit ← circuit.applyGate 9 .rz [q 0] [.value quarter]
  let circuit ← circuit.applyGate 10 .rx [q 1] [.symbol "theta"]
  let circuit ← circuit.applyGate 11 .cx [q 0, q 1] []
  let circuit ← circuit.measure 12 (q 1) (c 0)
  let correction ← Operation.ofStandard 13 .x []
  circuit.place (some correction) [q 0] [] (some ⟨.register ⟨.classical, "c", 1⟩, .equal, 1⟩)

/-- A measurement too wide to be exported. -/
def wideMeasurement : Except CircuitError Circuit := do
  let both ← Operation.measurement 14 2
  (Circuit.ofSizes "circuit" 2 2).place (some both) [q 0, q 1] [c 0, c 1] none

def exported (circuit : Circuit) (options : Options) : String :=
  match circuit.toText options with
  | .ok text => text
  | .error e => "  Error: " ++ e.report.text ++ "\n"

def transcript : Except CircuitError String := do
  let bell ← bell
  let ghzTwice ← ghzTwice
  let feedback ← feedback
  let wideMeasurement ← wideMeasurement
  let decimals : Options := { Options.standard with fold := false }
  return String.join [
    "=== OpenQASM 3 Exporter ===\n\n",
    "Bell state circuit:\n", bell.text, "\n", exported bell .standard,
    "\nGHZ gate used twice:\n", exported ghzTwice .standard,
    "\nParameterized circuit with feedback:\n", exported feedback .standard,
    "\nSame circuit with constant folding disabled:\n", exported feedback decimals,
    "\nExporting a two-qubit measurement:\n", exported wideMeasurement .standard,
    "\nDone.\n"]

end OpenQasm.Showcase
