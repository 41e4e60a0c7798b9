import SchemaCodec.CommandLine.Arguments

namespace SchemaCodec.CommandLine

/-! Commands and what they say about themselves. -/

inductive Command where
  | convert
  | version
  | help
  deriving DecidableEq, Repr

namespace Command

def ofName? (name : String) : Option Command :=
  if name = "version" then some .version else if name = "help" then some .help else none

def flags : Command → List Flag
  | .convert => Flag.ofSettings ++ [.help "schemats"]
  | .version => [.help "version"]
  | .help => [.help "help"]

def about : Command → String
  | .convert =>
    "schemats converts JSON Schema draft-07 documents into TypeScript\n" ++
    "modules exporting io-ts codecs, static types and doctest-annotated constants.\n\n" ++
    "Settings come from --config, then SCHEMATS_* environment variables, then flags.\n\n" ++
    "Examples:\n" ++
    "  schemats --input-file 'schemas/**/*.json' --output-dir src/generated\n" ++
    "  schemats --config schemats.yaml --watch\n" ++
    "  schemats --input-file schema.json --emit=false --strict"
  | .version => "Print version information"
  | .help =>
    "Help provides help for any command in the application.\n" ++
    "Simply type schemats help [path to command] for full details."

def usageLines : Command → String
  | .convert => "  schemats [flags]\n  schemats [command]\n"
  | .version => "  schemats version [flags]\n"
  | .help => "  schemats help [command] [flags]\n"

def overview : Command → String
  | .convert =>
    "\nAvailable Commands:\n" ++
    "  completion  Generate the autocompletion script for the specified shell\n" ++
    "  help        Help about any command\n" ++
    "  version     Print version information\n"
  | _ => ""

def hint : Command → String
  | .convert => "\nUse \"schemats [command] --help\" for more information about a command.\n"
  | _ => ""

def helpText (command : Command) : String :=
  command.about ++ "\n\nUsage:\n" ++ command.usageLines ++ command.overview ++
    "\nFlags:\n" ++ Flag.table command.flags ++ command.hint

def versionText : String :=
  "schemats dev\n  commit:  none\n  built:   unknown\n"

/-- The command that arguments name, and the arguments that are left for it. -/
def select (arguments : List String) : Command × List String :=
  let known := Flag.ofSettings
  match (firstPlain? known arguments).bind fun name => (ofName? name).map (name, ·) with
  | some (name, command) => (command, without known name arguments)
  | none => (.convert, arguments)

end Command

inductive Plan where
  | print (text : String)
  | convert (flags : Flags)

def plan (arguments : List String) : Except UsageError Plan := do
  let (command, arguments) := Command.select arguments
  let (flags, plain) ← readArguments command.flags arguments {}
  if flags.help then return .print command.helpText
  match command, plain with
  | .convert, [] => return .convert flags
  | .convert, name :: _ => throw (.unknownCommand name)
  | .version, _ => return .print Command.versionText
  | .help, topic => return .print (Command.select topic).1.helpText

end SchemaCodec.CommandLine
