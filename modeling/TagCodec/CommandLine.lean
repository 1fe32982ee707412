import TagCodec.CommandLine.Help
import TagCodec.Decoding
import TagCodec.Encoding

namespace TagCodec.CommandLine

def defaultConfig : Config := ⟨true, [Catalog.circle.name, Catalog.swatch.name]⟩

def origin : Value := .leaf 0 (.point ⟨0, 0⟩)

def samples : List Value :=
  [.null, origin, .leaf 1 (.point ⟨3, -4⟩), .leaf 2 (.record (.circle ⟨0x3FF8000000000000⟩)),
    .leaf 3 (.member .swatch ⟨2, by decide⟩)]

/-- An address beyond those of the samples. -/
def freshAddress : Nat := 4

/-- Points have a codec, the origin is a constant, and circles and swatches can get a codec if
the configuration lists them. -/
def registry (c : Config) : Except DraftError Registry := do
  let d := Draft.empty.addCodec ⟨0, .point⟩
  let d ← d.addConstant origin (by decide)
  let d := d.withResolver (.ofClassPath (.ofList [Catalog.circle, Catalog.swatch]))
  (d.withConfig c).build

def hexDigits (b : UInt8) : String :=
  String.ofList [Nat.digitChar (b.toNat / 16), Nat.digitChar (b.toNat % 16)]

def bytesText (bs : List UInt8) : String := "[" ++ ", ".intercalate (bs.map hexDigits) ++ "]"

/-- One sample's line, and what the registry has learnt by then. -/
def sampleLine (r : Registry) (v : Value) (m : Memo) : String × Memo :=
  match r.encode v m with
  | .error e m => (v.optionText ++ ": encode failed: " ++ e.message, m)
  | .ok bs m =>
    let start := v.optionText ++ " -> " ++ bytesText bs
    match r.decode bs freshAddress m with
    | .ok w m => (start ++ " -> " ++ w.optionText, m)
    | .error e m => (start ++ ": decode failed: " ++ e.message, m)

def sampleLines (r : Registry) : List Value → Memo → List String
  | [], _ => []
  | v :: vs, m =>
    let (line, m) := sampleLine r v m
    line :: sampleLines r vs m

def lines (xs : List String) : String := String.join (xs.map fun x => x ++ "\n")

def output (r : Registry) : Command → String
  | .layout => lines [String.ofList (r.layout.toJson.pretty 0)]
  | .roundTrip => lines (sampleLines r samples r.start)

structure Outcome where
  exitCode : UInt8
  output : String
  complaint : Option String
deriving DecidableEq, Repr

namespace Outcome

def success (output : String) : Outcome := ⟨0, output, none⟩

def failure (complaint : String) : Outcome := ⟨1, "", some complaint⟩

def misuse (complaint : String) : Outcome := ⟨2, "", some complaint⟩

end Outcome

def Invocation.run (i : Invocation) (readFile : String → Except String (List UInt8)) : Outcome :=
  let config :=
    match i.config? with
    | some path => Config.ofFile path (readFile path)
    | none => .ok defaultConfig
  match config with
  | .error e => .failure e.message
  | .ok c =>
    match registry c with
    | .error e => .failure e.message
    | .ok r => .success (output r i.command)

/-- Files are read through `readFile`, which gives the bytes or the system's reason. -/
def run (args : List String) (readFile : String → Except String (List UInt8)) : Outcome :=
  match request args with
  | .refused complaint => .misuse complaint
  | .help topic => .success topic.page.text
  | .run i => i.run readFile

end TagCodec.CommandLine
