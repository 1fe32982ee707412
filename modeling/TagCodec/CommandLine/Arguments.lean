import TagCodec.Text.Quoted

namespace TagCodec.CommandLine

inductive Command
  | layout
  | roundTrip
deriving DecidableEq, Repr

namespace Command

def name : Command → String
  | layout => "layout"
  | roundTrip => "roundtrip"

def all : List Command := [layout, roundTrip]

/-- Names are not abbreviated. -/
def ofName? (s : String) : Option Command := all.find? fun c => c.name == s

end Command

/-- What the program can give help on. -/
inductive Topic
  | program
  | command (c : Command)
  | help
deriving DecidableEq, Repr

structure Invocation where
  config? : Option String
  command : Command
deriving DecidableEq, Repr

inductive Request
  | refused (complaint : String)
  | help (topic : Topic)
  | run (i : Invocation)
deriving DecidableEq, Repr

/-- The options given so far, in front of a command or behind it. A value that stands in a word
of its own is open until the next option or the end. -/
structure Given where
  config? : Option String
  open? : Option String
deriving DecidableEq, Repr

/-- The options in front of the next word. -/
inductive Options
  | refused (complaint : String)
  | help
  | upTo (g : Given) (rest : List String)
deriving DecidableEq, Repr

namespace Given

def empty : Given := ⟨none, none⟩

/-- The path of the configuration is not empty and given once. -/
def accept (g : Given) (path : String) : Except String Given :=
  if path.isEmpty then .error "--config needs a value"
  else if g.config?.isSome then .error "--config cannot be used multiple times"
  else .ok ⟨some path, none⟩

/-- Accepts the open value. -/
def settle (g : Given) : Except String Given :=
  match g.open? with
  | some path => g.accept path
  | none => .ok g

end Given

/-- A word that starts with a dash is an option, unless it is the dash alone. -/
def isOption (word : String) : Bool := word.startsWith "-" && word != "-"

/-- The short form counts also when other letters follow it. -/
def asksForHelp (word : String) : Bool := word == "--help" || word.startsWith "-h"

def options (g : Given) : List String → Options
  | [] => .upTo g []
  | ["--"] => .upTo g []
  | ["--config"] => .refused "--config needs a value"
  | "--config" :: path :: rest =>
    if isOption path then .refused "--config needs a value"
    else
      match g.settle with
      | .ok g => options { g with open? := some path } rest
      | .error complaint => .refused complaint
  | word :: rest =>
    if word.startsWith "--config=" then
      match g.settle >>= fun g => g.accept (word.drop 9).toString with
      | .ok g => options g rest
      | .error complaint => .refused complaint
    else if asksForHelp word then
      match g.settle with
      | .ok _ => .help
      | .error complaint => .refused complaint
    else if isOption word then .refused ("unexpected argument " ++ Text.quoted word)
    else .upTo g (word :: rest)

/-- A command with the words behind it. The configuration that stands nearer to the end counts. -/
def invocation (outer : Given) (command : Command) (words : List String) : Request :=
  match options .empty words with
  | .refused complaint => .refused complaint
  | .help => .help (.command command)
  | .upTo inner [] =>
    match inner.settle, outer.settle with
    | .ok inner, .ok outer => .run ⟨inner.config?.or outer.config?, command⟩
    | .error complaint, _ => .refused complaint
    | _, .error complaint => .refused complaint
  | .upTo _ (word :: _) => .refused ("unexpected argument " ++ Text.quoted word)

def unrecognized (word : String) : Request :=
  .refused ("unrecognized subcommand " ++ Text.quoted word)

/-- The topic behind the word `help`, where nothing counts as an option. -/
def helpRequest : List String → Request
  | [] => .help .program
  | ["help"] => .help .help
  | [word] => (Command.ofName? word).elim (unrecognized word) fun c => .help (.command c)
  | _ :: word :: _ => unrecognized word

/-- Without a command the layout is meant. -/
def request (words : List String) : Request :=
  match options .empty words with
  | .refused complaint => .refused complaint
  | .help => .help .program
  | .upTo g [] =>
    match g.settle with
    | .ok g => .run ⟨g.config?, .layout⟩
    | .error complaint => .refused complaint
  | .upTo _ ("help" :: rest) => helpRequest rest
  | .upTo g (word :: rest) =>
    (Command.ofName? word).elim (unrecognized word) fun c => invocation g c rest

end TagCodec.CommandLine
