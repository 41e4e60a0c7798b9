import SchemaCodec.FileSystem
import SchemaCodec.Settings.Environment
import SchemaCodec.Text.Base64
import SchemaCodec.Yaml.Resolution
import SchemaCodec.Yaml.Tree

namespace SchemaCodec.Settings

open Yaml (Node Resolved)

/-! Settings files: YAML mappings from names of settings to values. -/

def isDateLike (text : String) : Bool :=
  let year := text.toList.takeWhile Char.isDigit
  year.length == 4 && (text.toList.drop 4).head? == some '-'

/-- What a scalar stands for, and its text. A tag must fit the text. -/
def scalar? (tag : Option String) (isPlain : Bool) (text : String) : Option (Resolved × String) :=
  let resolved := Yaml.resolve text
  match Yaml.givenTag? tag with
  | none => some (if isPlain then resolved else .text, text)
  | some "!!str" => some (.text, text)
  | some "!!binary" =>
    (Text.Base64.decodePadded? [] text.toUTF8.toList).map fun bytes =>
      (.text, Text.decodeLossy bytes)
  | some "!!timestamp" => if isDateLike text then some (.text, text) else none
  | some "!!null" => if resolved = .null then some (.null, text) else none
  | some "!!bool" => match resolved with
    | .bool _ => some (resolved, text)
    | _ => none
  | some "!!int" => match resolved with
    | .integer _ => some (resolved, text)
    | _ => none
  | some "!!float" => match resolved with
    | .float _ | .integer _ => some (resolved, text)
    | _ => none
  | some _ => none

/-- A value of a type, nothing for null, or no value at all for another type. -/
abbrev Decoded (α : Type) :=
  Option (Option α)

def scalarOf? : Node → Option (Resolved × String)
  | .scalar _ tag isPlain text => scalar? tag isPlain text
  | .alias _ _ target => scalarOf? target
  | _ => none

def text? (node : Node) : Decoded String :=
  match scalarOf? node with
  | none => none
  | some (.null, _) => some none
  | some (_, text) => some (some text)

def yesWords : List String :=
  ["y", "Y", "yes", "Yes", "YES", "on", "On", "ON"]

def noWords : List String :=
  ["n", "N", "no", "No", "NO", "off", "Off", "OFF"]

/-- A boolean, also by a word for yes or no. -/
def flag? (node : Node) : Decoded Bool :=
  match scalarOf? node with
  | some (.null, _) => some none
  | some (.bool value, _) => some (some value)
  | some (.text, text) =>
    if yesWords.contains text then some (some true)
    else if noWords.contains text then some (some false)
    else none
  | _ => none

def leastInteger : Int :=
  -Nat.pow 2 63

/-- The whole part of a number. One that is too small, or just too large, gives the least integer;
numbers above that have none. -/
def wholePart? : Decimal.Binary64 → Option Int
  | .notANumber => none
  | .infinite negative => if negative then some leastInteger else none
  | .finite negative mantissa exponent =>
    let size := if exponent < 0 then mantissa / Nat.pow 2 (-exponent).toNat
      else mantissa * Nat.pow 2 exponent.toNat
    if negative then some (if size ≤ Nat.pow 2 63 then -size else leastInteger)
    else if size < Nat.pow 2 63 then some size
    else if size = Nat.pow 2 63 then some leastInteger
    else none

/-- An integer of 64 bits, also as the whole part of a number. -/
def integer? (node : Node) : Decoded Int :=
  match scalarOf? node with
  | some (.null, _) => some none
  | some (.integer n, _) => if n < Nat.pow 2 63 then some (some n) else none
  | some (.float value, _) => (wholePart? value).map some
  | _ => none

/-- A list of texts, nulls left out. -/
def texts? : Node → Decoded (List String)
  | .sequence _ items => (items.mapM (m := Option) text?).map fun texts => some (texts.filterMap id)
  | .mapping .. => none
  | .alias _ _ target => texts? target
  | .circular .. => none
  | .scalar _ tag isPlain text =>
    match scalar? tag isPlain text with
    | some (.null, _) => some none
    | _ => none

def names : List String :=
  ["input_file", "output_dir", "strict", "mask_null", "emit", "base", "import",
    "import_hash_algorithm", "import_hash_length", "qed", "continue_on_error", "log_level",
    "metrics_textfile", "watch"]

/-- Take in one named value; other names do not count. -/
def Overrides.set? (overrides : Overrides) (name : String) (value : Node) : Option Overrides :=
  match name with
  | "input_file" => (text? value).map fun v => { overrides with inputFile := v }
  | "output_dir" => (text? value).map fun v => { overrides with outputDir := v }
  | "strict" => (flag? value).map fun v => { overrides with strict := v }
  | "mask_null" => (flag? value).map fun v => { overrides with maskNull := v }
  | "emit" => (flag? value).map fun v => { overrides with emit := v }
  | "base" => (text? value).map fun v => { overrides with base := v }
  | "import" => (texts? value).map fun v => { overrides with imports := v }
  | "import_hash_algorithm" => (text? value).map fun v => { overrides with hashAlgorithm := v }
  | "import_hash_length" => (integer? value).map fun v => { overrides with hashLength := v }
  | "qed" => (text? value).map fun v => { overrides with qed := v }
  | "continue_on_error" => (flag? value).map fun v => { overrides with continueOnError := v }
  | "log_level" => (text? value).map fun v => { overrides with logLevel := v }
  | "metrics_textfile" => (text? value).map fun v => { overrides with metricsFile := v }
  | "watch" => (flag? value).map fun v => { overrides with watch := v }
  | _ => some overrides

/-- What makes two keys of a mapping the same: the kind of node and its text. -/
def keyMark : Node → Nat × String
  | .scalar _ _ _ text => (0, text)
  | .alias _ name _ => (1, name)
  | .circular _ name => (1, name)
  | .sequence .. => (2, "")
  | .mapping .. => (3, "")

def hasRepeats [BEq α] : List α → Bool
  | [] => false
  | a :: rest => rest.contains a || hasRepeats rest

/-- Whether a key takes in the pairs of other mappings. -/
def isMerge : Node → Bool
  | .scalar _ tag isPlain text =>
    text == "<<" && match Yaml.givenTag? tag with
      | none => isPlain
      | some tag => tag == "!!merge"
  | _ => false

/-- The named values of a mapping itself. A null names nothing. -/
def ownPairs : List (Node × Node) → Option (List (String × Node))
  | [] => some []
  | (key, value) :: rest =>
    if isMerge key then ownPairs rest
    else do
      let name ← text? key
      let others ← ownPairs rest
      return match name with
        | some name => (name, value) :: others
        | none => others

mutual
/-- The named values of a mapping: its own, then those it takes in. No key may occur twice. A mapping
may take in several others in a sequence. -/
def pairsOf (isTakenIn : Bool) : Node → Option (List (String × Node))
  | .mapping _ pairs =>
    if hasRepeats (pairs.map fun (key, _) => keyMark key) then none
    else do return (← ownPairs pairs) ++ (← mergedPairs pairs)
  | .sequence _ items => if isTakenIn then itemPairs items else none
  | .alias _ _ target => pairsOf false target
  | .circular .. => none
  | .scalar .. => none

def mergedPairs : List (Node × Node) → Option (List (String × Node))
  | [] => some []
  | (key, value) :: rest =>
    if isMerge key then do return (← pairsOf true value) ++ (← mergedPairs rest)
    else mergedPairs rest

def itemPairs : List Node → Option (List (String × Node))
  | [] => some []
  | item :: rest => do return (← pairsOf false item) ++ (← itemPairs rest)
end

/-- Of values with the same name only the first counts. -/
def firstOfEach : List String → List (String × Node) → List (String × Node)
  | _, [] => []
  | seen, (name, value) :: rest =>
    if seen.contains name then firstOfEach seen rest
    else (name, value) :: firstOfEach (name :: seen) rest

def Overrides.ofPairs? (pairs : List (Node × Node)) (position : Document.Position) :
    Option Overrides := do
  let own ← ownPairs pairs
  let known := (own.map Prod.fst).filter names.contains
  let all ← pairsOf false (.mapping position pairs)
  if hasRepeats known then none
  else (firstOfEach [] all).foldlM (fun overrides (name, value) => overrides.set? name value) {}

def Overrides.ofNode? : Node → Option Overrides
  | .mapping position pairs => ofPairs? pairs position
  | .scalar _ tag isPlain text =>
    match scalar? tag isPlain text with
    | some (.null, _) => some {}
    | _ => none
  | _ => none

/-- What a settings file says about the settings, once the variables in it are replaced. -/
def Overrides.ofFile? (environment : Environment) (content : List UInt8) : Option Overrides :=
  match Node.ofBytes (environment.expand content) with
  | none => none
  | some none => some {}
  | some (some root) => ofNode? root

inductive LoadError where
  | unreadable (cause : FileSystem.Fault)
  | malformed
  | invalid (cause : Invalid)
  deriving DecidableEq, Repr

def LoadError.message : LoadError → String
  | .unreadable cause => "read config: " ++ cause.message
  | .malformed => "parse config: malformed settings"
  | .invalid cause => "validate config: " ++ cause.message

def load (fs : FileSystem) (environment : Environment) (path : String) :
    Except LoadError Settings := do
  let content ← (fs.read path).mapError .unreadable
  let some overrides := Overrides.ofFile? environment content | throw .malformed
  let settings := ((({} : Settings).override overrides).override environment.overrides).withDefaults
  settings.check.mapError .invalid
  return settings

end SchemaCodec.Settings
