import OpenQasm.Program.Text
import OpenQasm.Export.Lowering

/-! Exporting a circuit. The catalog keeps what it has when a build fails. -/
namespace OpenQasm

structure Options where
  includes : List String
  fold : Bool
deriving DecidableEq, Repr

def Options.standard : Options := ⟨[standardInclude], true⟩

structure Session where
  circuit : Circuit
  options : Options
  catalog : Catalog

namespace Session

def start (c : Circuit) (options : Options) : Session :=
  ⟨c, options, .ofScope (.ofIncludes options.includes)⟩

/-- The names that a circuit brings into the global scope. -/
def globalNames (c : Circuit) : List String :=
  c.qregs.map (·.name) ++ c.cregs.map (·.name) ++ c.symbols

def reserveGlobals (k : Catalog) (c : Circuit) : Catalog :=
  { k with scope := (globalNames c).foldl Scope.reserve k.scope }

/-- The program of a circuit whose definitions are in the catalog. -/
def program (c : Circuit) (options : Options) (k : Catalog) : Except ExportFailure Program := do
  let definitions ← k.definitions.mapM fun d => d.lower k.scope options.fold
  let statements ← c.lowered k.scope options.fold .indexed
  return {
    header := ⟨languageVersion, options.includes⟩
    statements := definitions ++ c.symbols.map .input
      ++ c.cregs.map (fun r => .register .bit r.name r.size)
      ++ c.qregs.map (fun r => .register .qubit r.name r.size)
      ++ statements.map .statement }

/-- Builds the program once; the session that comes with the result has the catalog as it
stands afterwards. -/
def build (s : Session) : Session × Except ExportFailure Program :=
  match checkRegisters s.circuit with
  | .error fault => (s, .error (.general fault))
  | .ok () =>
    match (reserveGlobals s.catalog s.circuit).collectAll s.circuit.instructions with
    | ⟨catalog, some e⟩ => ({ s with catalog }, .error e)
    | ⟨catalog, none⟩ => ({ s with catalog }, program s.circuit s.options catalog)

/-- Builds up to `n` times in one session, stopping at the first failure. The result is that of
the last build, or `last` when there was none. -/
def buildTimes (s : Session) (last : Program) : Nat → Session × Except ExportFailure Program
  | 0 => (s, .ok last)
  | n + 1 =>
    match s.build with
    | (next, .ok p) => next.buildTimes p n
    | failed => failed

end Session

def Circuit.toProgram (c : Circuit) (options : Options) : Except ExportFailure Program :=
  (Session.start c options).build.2

def Circuit.toText (c : Circuit) (options : Options) : Except ExportFailure String :=
  (c.toProgram options).map Program.text

end OpenQasm
