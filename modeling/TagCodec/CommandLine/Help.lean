import TagCodec.CommandLine.Arguments

namespace TagCodec.CommandLine

structure Table where
  title : String
  /-- What to write, and what it is for. -/
  rows : List (String × String)

structure Page where
  about : String
  usage : String
  tables : List Table

namespace Table

/-- The explanations begin in one column. -/
def text (t : Table) : String :=
  let width := (t.rows.map fun row => row.1.length).foldl max 0
  let line := fun (row : String × String) =>
    "  " ++ row.1 ++ String.ofList (List.replicate (width - row.1.length) ' ') ++ "  " ++ row.2
      ++ "\n"
  t.title ++ ":\n" ++ String.join (t.rows.map line)

end Table

def Page.text (p : Page) : String :=
  p.about ++ "\n\nUsage: " ++ p.usage ++ "\n" ++ String.join (p.tables.map fun t => "\n" ++ t.text)

/-- The name that the program goes by. -/
def programName : String := "tagwire"

def Command.about : Command → String
  | layout => "Print the tag layout as JSON"
  | roundTrip => "Encode and decode the sample values"

def helpAbout : String := "Print this message or the help of the given subcommand(s)"

/-- The options are the same with every command. -/
def optionTable : Table :=
  ⟨"Options", [("    --config <CONFIG>", "Registry configuration (JSON)"),
    ("-h, --help", "Print help")]⟩

def commandTable : Table :=
  ⟨"Commands", Command.all.map (fun c => (c.name, c.about)) ++ [("help", helpAbout)]⟩

def Topic.page : Topic → Page
  | program =>
    ⟨"Codec registry demo", programName ++ " [OPTIONS] [COMMAND]", [commandTable, optionTable]⟩
  | command c => ⟨c.about, programName ++ " " ++ c.name ++ " [OPTIONS]", [optionTable]⟩
  | help =>
    ⟨helpAbout, programName ++ " help [COMMAND]...",
      [⟨"Arguments", [("[COMMAND]...", "Print help for the subcommand(s)")]⟩]⟩

end TagCodec.CommandLine
