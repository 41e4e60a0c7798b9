import SchemaCodec.CommandLine.Flag

namespace SchemaCodec.CommandLine

/-! Arguments: which of them are flags, which are values of flags, and which stand for themselves. -/

def switchValue : String :=
  "true"

/-- Read a flag by its name, maybe with a value behind an equals sign, else with the next argument as
its value. Tells whether the next argument has been used. -/
def readNamed (known : List Flag) (flags : Flags) (text : List Char) (next : Option String) :
    Except UsageError (Flags × Bool) := do
  if text.head? = some '-' ∨ text.head? = some '=' then
    throw (.badSyntax ("--" ++ String.ofList text))
  let (name, value) := match Text.cut? '=' text with
    | some (name, value) => (String.ofList name, some (String.ofList value))
    | none => (String.ofList text, none)
  let some flag := known.find? fun flag => flag.name == name | throw (.unknownFlag name)
  match value, flag.isSwitch, next with
  | some value, _, _ => return (← flag.apply value flags, false)
  | none, true, _ => return (← flag.apply switchValue flags, false)
  | none, false, some value => return (← flag.apply value flags, true)
  | none, false, none => throw (.missingValue name)

/-- How the letters of testing flags begin; these are passed over. -/
def testingLetters : List Char :=
  ['t', 'e', 's', 't', '.']

/-- Read flags by their letters. The letters behind a flag that takes a value are that value. -/
def readLetters (known : List Flag) (next : Option String) :
    List Char → Flags → Except UsageError (Flags × Bool)
  | [], flags => .ok (flags, false)
  | letter :: rest, flags => do
    let letters := letter :: rest
    if testingLetters.isPrefixOf letters then return (flags, false)
    let some flag := known.find? fun flag => flag.letter == some letter
      | throw (.unknownLetter letter (String.ofList letters))
    match rest, flag.isSwitch, next with
    | '=' :: c :: value, _, _ => return (← flag.apply (String.ofList (c :: value)) flags, false)
    | rest, true, _ =>
      let flags ← flag.apply switchValue flags
      readLetters known next rest flags
    | c :: value, false, _ => return (← flag.apply (String.ofList (c :: value)) flags, false)
    | [], false, some value => return (← flag.apply value flags, true)
    | [], false, none => throw (.missingLetterValue letter (String.ofList letters))

/-- Read one argument. Gives the argument back if it is no flag. -/
def readArgument (known : List Flag) (flags : Flags) (argument : String) (next : Option String) :
    Except UsageError (Flags × Bool × List String) :=
  match argument.toList with
  | '-' :: '-' :: text => (readNamed known flags text next).map fun (flags, used) =>
    (flags, used, [])
  | '-' :: c :: rest => (readLetters known next (c :: rest) flags).map fun (flags, used) =>
    (flags, used, [])
  | _ => .ok (flags, false, [argument])

/-- Read all arguments: what the flags say, and the arguments that are no flags. Two hyphens end the
flags. -/
def readArguments (known : List Flag) :
    List String → Flags → Except UsageError (Flags × List String)
  | [], flags => .ok (flags, [])
  | "--" :: rest, flags => .ok (flags, rest)
  | [argument], flags => do
    let (flags, _, plain) ← readArgument known flags argument none
    return (flags, plain)
  | argument :: next :: rest, flags => do
    let (flags, used, plain) ← readArgument known flags argument (some next)
    let (flags, others) ←
      if used then readArguments known rest flags else readArguments known (next :: rest) flags
    return (flags, plain ++ others)

/-- Whether an argument is a flag whose value is the next argument. Flags that are not known count as
such. -/
def takesNext (known : List Flag) (argument : String) : Bool :=
  let waits (flag : Option Flag) : Bool := !flag.any Flag.isSwitch
  !argument.toList.contains '=' &&
    match argument.toList with
    | '-' :: '-' :: name => waits (known.find? fun flag => flag.name == String.ofList name)
    | ['-', letter] =>
      letter.toNat < 0x80 && waits (known.find? fun flag => flag.letter == some letter)
    | _ => false

def isDashed (argument : String) : Bool :=
  argument.toList.head? == some '-'

/-- The first argument that is neither a flag nor the value of one. A flag before the last argument
hides it. -/
def firstPlain? (known : List Flag) : List String → Option String
  | [] => none
  | [argument] =>
    if argument = "" || isDashed argument then none else some argument
  | argument :: next :: rest =>
    if argument = "--" then none
    else if takesNext known argument then
      if rest = [] then none else firstPlain? known rest
    else if argument ≠ "" ∧ !isDashed argument then some argument
    else firstPlain? known (next :: rest)

/-- The arguments without the first plain one of the given name. -/
def without (known : List Flag) (name : String) : List String → List String
  | [] => []
  | [argument] => if !isDashed argument ∧ argument = name then [] else [argument]
  | argument :: next :: rest =>
    if argument = "--" then argument :: next :: rest
    else if takesNext known argument then argument :: next :: without known name rest
    else if !isDashed argument ∧ argument = name then next :: rest
    else argument :: without known name (next :: rest)

end SchemaCodec.CommandLine
