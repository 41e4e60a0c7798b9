import SchemaCodec.Conversion.Fault
import SchemaCodec.Diagnostics
import SchemaCodec.Reference.Resolver

namespace SchemaCodec

/-! Conversions: computations that may fail and that leave a record of what they report and of what
the generated module will need. The record is kept when the conversion fails. -/

inductive Helper where
  | defined
  | null
  deriving DecidableEq, Repr

namespace Helper

def definedText : String :=
  "\n" ++
  "export type Defined = \x7b\x7d | null\n" ++
  "export class DefinedType extends t.Type<Defined> \x7b\n" ++
  "  readonly _tag: 'DefinedType' = 'DefinedType'\n" ++
  "  constructor() \x7b\n" ++
  "    super(\n" ++
  "      'defined',\n" ++
  "      (u): u is Defined => typeof u !== 'undefined',\n" ++
  "      (u, c) => (this.is(u) ? t.success(u) : t.failure(u, c)),\n" ++
  "      t.identity\n" ++
  "    )\n" ++
  "  \x7d\n" ++
  "\x7d\n" ++
  "export interface DefinedC extends DefinedType \x7b\x7d\n" ++
  "export const Defined: DefinedC = new DefinedType()\n"

def nullText : String :=
  "\n" ++
  "export interface NullBrand \x7b\n" ++
  "  readonly Null: unique symbol\n" ++
  "\x7d\n" ++
  "export type NullC = t.BrandC<t.UnknownC, NullBrand>;\n" ++
  "export const Null: NullC = t.brand(\n" ++
  "  t.unknown,\n" ++
  "  (n): n is t.Branded<unknown, NullBrand> => n === null,\n" ++
  "  'Null'\n" ++
  ")\n" ++
  "export type Null = t.TypeOf<typeof Null>\n"

def text : Helper → String
  | .defined => definedText
  | .null => nullText

def name : Helper → String
  | .defined => "Defined"
  | .null => "Null"

end Helper

inductive Requirement where
  /-- The library of codecs. -/
  | codecs
  /-- The type of arrays with at least one element. -/
  | filledArrayType
  /-- The codec of arrays with at least one element. -/
  | filledArrayCodec
  /-- Another generated module. -/
  | module (name path : String)
  | helper (helper : Helper)
  | defaultExport (name : String)
  deriving DecidableEq, Repr

namespace Requirement

def moduleImport (name path : String) : String :=
  "import * as " ++ name ++ " from '" ++ path ++ "';"

def importText? : Requirement → Option String
  | .codecs => some "import * as t from 'io-ts';"
  | .filledArrayType => some "import \x7b NonEmptyArray \x7d from 'fp-ts/lib/NonEmptyArray';"
  | .filledArrayCodec =>
    some "import \x7b nonEmptyArray \x7d from 'io-ts-types/lib/nonEmptyArray';"
  | .module name path => some (moduleImport name path)
  | _ => none

def helperText? : Requirement → Option String
  | .helper which => some which.text
  | _ => none

def exportText? : Requirement → Option String
  | .defaultExport name => some ("export default " ++ name ++ ";")
  | _ => none

end Requirement

inductive Event where
  | reported (report : Report)
  | required (requirement : Requirement)
  /-- A definition is complete. -/
  | defined (name : String) (isRoot : Bool)
  deriving DecidableEq, Repr

namespace Event

def report? : Event → Option Report
  | .reported report => some report
  | _ => none

def requirement? : Event → Option Requirement
  | .required requirement => some requirement
  | _ => none

end Event

/-- What is given for the conversion of a document: whether null differs from a missing value, and
how other documents are imported. -/
structure Scope where
  maskNull : Bool
  resolver : Resolver

structure Conversion (α : Type) where
  events : List Event
  result : Except Fault α

namespace Conversion

def pure (value : α) : Conversion α :=
  ⟨[], .ok value⟩

def bind (first : Conversion α) (next : α → Conversion β) : Conversion β :=
  match first.result with
  | .ok value =>
    let second := next value
    ⟨first.events ++ second.events, second.result⟩
  | .error fault => ⟨first.events, .error fault⟩

instance : Monad Conversion where
  pure := Conversion.pure
  bind := Conversion.bind

def stop (fault : Fault) : Conversion α :=
  ⟨[], .error fault⟩

def fail (location : Location) (problem : Fault.Problem) : Conversion α :=
  stop (.located ⟨location, problem⟩)

def record (event : Event) : Conversion Unit :=
  ⟨[event], .ok ()⟩

def require (requirement : Requirement) : Conversion Unit :=
  record (.required requirement)

def report (report : Report) : Conversion Unit :=
  record (.reported report)

def info (message : String) : Conversion Unit :=
  report (.info message)

def warn (message : String) : Conversion Unit :=
  report (.warning message)

def warnAll : List String → Conversion Unit
  | [] => .pure ()
  | message :: rest => do
    warn message
    warnAll rest

def each (convert : α → Conversion β) : List α → Conversion (List β)
  | [] => .pure []
  | item :: rest => do
    let first ← convert item
    let others ← each convert rest
    return first :: others

def ofExcept : Except Fault α → Conversion α
  | .ok value => .pure value
  | .error fault => .stop fault

def reports (conversion : Conversion α) : List Report :=
  conversion.events.filterMap Event.report?

end Conversion

end SchemaCodec
