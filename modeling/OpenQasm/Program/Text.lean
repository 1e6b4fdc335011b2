import OpenQasm.PiMultiple
import OpenQasm.Program.Basic

/-! The text of a program, in which every line is ended. -/
namespace OpenQasm

/-- Texts with a comma and a blank between them. -/
def commaList (texts : List String) : String := String.intercalate ", " texts

def sizeText (size : UInt64) : String := "[" ++ toString size.toNat ++ "]"

def Operand.text (o : Operand) : String :=
  match o.index with
  | some i => o.name ++ sizeText i
  | none => o.name

def Expression.text : Expression → String
  | .integer value => toString value
  | .real value fold => value.angleText fold
  | .identifier name => name
  | .operand o => o.text

def Equality.text (e : Equality) : String := e.left.text ++ " == " ++ e.right.text

/-- A name with its parameters in parentheses and its qubits, each left out when there are
none. -/
def applicationText (name : String) (params qubits : List String) : String :=
  name ++ (if params.isEmpty then "" else "(" ++ commaList params ++ ")") ++
    (if qubits.isEmpty then "" else " " ++ commaList qubits)

def Call.text (c : Call) : String :=
  applicationText c.name (c.params.map Expression.text) (c.qubits.map Operand.text)

def Signature.text (s : Signature) : String := applicationText s.name s.params s.qubits

def QubitArgument.text (q : QubitArgument) : String :=
  "qubit" ++ (match q.size with | some n => sizeText n | none => "") ++ " " ++ q.name

def SubroutineSignature.text (s : SubroutineSignature) : String :=
  applicationText s.name (s.params.map ("float[32] " ++ ·)) (s.qubits.map QubitArgument.text)

def Storage.keyword : Storage → String
  | .bit => "bit"
  | .qubit => "qubit"

/-- The right side of a measurement. -/
def measurementText (qubits : List Operand) : String :=
  "measure " ++ commaList (qubits.map Operand.text)

namespace Statement

/-- A statement without its block. -/
def headText : Statement → String
  | .gateCall call => call.text ++ ";"
  | .subroutineCall call => call.text ++ ";"
  | .barrier qubits => "barrier " ++ commaList (qubits.map Operand.text) ++ ";"
  | .measure target qubits => target.text ++ " = " ++ measurementText qubits ++ ";"
  | .branch test _ => "if (" ++ test.text ++ ")\x7b"

mutual

def lines : Statement → List String
  | .gateCall call => [headText (.gateCall call)]
  | .subroutineCall call => [headText (.subroutineCall call)]
  | .barrier qubits => [headText (.barrier qubits)]
  | .measure target qubits => [headText (.measure target qubits)]
  | .branch test body => headText (.branch test body) :: (blockLines body ++ ["\x7d"])

def blockLines : List Statement → List String
  | [] => []
  | s :: rest => lines s ++ blockLines rest

end

theorem blockLines_eq_flatMap (body : List Statement) : blockLines body = body.flatMap lines := by
  induction body with
  | nil => rfl
  | cons s rest ih => rw [blockLines, List.flatMap_cons, ih]

end Statement

namespace ProgramItem

/-- A global statement without its block. -/
def headText : ProgramItem → String
  | .gate signature _ => "gate " ++ signature.text
  | .subroutine signature _ => "def " ++ signature.text
  | .bodilessGate signature => "opaque " ++ signature.text ++ ";"
  | .register storage name size => storage.keyword ++ sizeText size ++ " " ++ name ++ ";"
  | .input name => "input float[32] " ++ name ++ ";"
  | .statement s => s.headText

def lines (g : ProgramItem) : List String :=
  match g with
  | .gate _ body => (g.headText ++ " \x7b") :: (Statement.blockLines body ++ ["\x7d"])
  | .subroutine _ body =>
    (g.headText ++ " \x7b") :: (Statement.blockLines body ++ ["return;", "\x7d"])
  | .statement s => s.lines
  | _ => [g.headText]

end ProgramItem

def versionText (version : String) : String := "OPENQASM " ++ version ++ ";"

def includeText (filename : String) : String := "include " ++ filename ++ ";"

def Header.lines (h : Header) : List String := versionText h.version :: h.includes.map includeText

def Program.lines (p : Program) : List String :=
  p.header.lines ++ p.statements.flatMap ProgramItem.lines

/-- Lines as one text, each ended by a newline. -/
def textOfLines (lines : List String) : String := String.join (lines.map (· ++ "\n"))

@[simp] theorem textOfLines_nil : textOfLines [] = "" := rfl

@[simp] theorem textOfLines_cons (line : String) (rest : List String) :
    textOfLines (line :: rest) = line ++ "\n" ++ textOfLines rest := by
  simp [textOfLines]

theorem textOfLines_append (xs ys : List String) :
    textOfLines (xs ++ ys) = textOfLines xs ++ textOfLines ys := by
  simp [textOfLines]

def Program.text (p : Program) : String := textOfLines p.lines

end OpenQasm
