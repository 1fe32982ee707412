import TagCodec.CommandLine

open TagCodec

def readFile (path : String) : IO (Except String (List UInt8)) := do
  try
    return .ok (← IO.FS.readBinFile path).data.toList
  catch e =>
    return .error (toString e)

/-- The content of the configuration file, if the arguments name one. -/
def configContent (args : List String) : IO (Except String (List UInt8)) :=
  match CommandLine.request args with
  | .run ⟨some path, _⟩ => readFile path
  | _ => return .ok []

def main (args : List String) : IO UInt32 := do
  let content ← configContent args
  let outcome := CommandLine.run args fun _ => content
  IO.print outcome.output
  outcome.complaint.forM fun text => IO.eprintln ("error: " ++ text)
  return outcome.exitCode.toUInt32
