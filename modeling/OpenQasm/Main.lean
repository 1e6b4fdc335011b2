import OpenQasm.Showcase

/-! The command line: prints the transcript of the sample exports. -/

def main : IO UInt32 := do
  match OpenQasm.Showcase.transcript with
  | .ok text =>
    IO.print text
    return 0
  | .error e =>
    IO.eprintln e.message
    return 1
