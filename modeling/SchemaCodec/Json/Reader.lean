import SchemaCodec.Document.Draft
import SchemaCodec.Document.ReadError
import SchemaCodec.Json.Token

namespace SchemaCodec.Json

open SchemaCodec
open Document

/-! Reading JSON text. The bracket that ends an object or array is not compared with the one that
opened it. -/

abbrev Outcome :=
  Except ReadError (Draft × List UInt8)

/-- What is asked of the reader: one document, or what is left of an object or array, of which some
parts are known. The items known of an array come last one first. -/
inductive Call where
  | value (path : Pointer) (text : List UInt8)
  | members (path : Pointer) (known : Table Draft) (text : List UInt8)
  | items (path : Pointer) (known : List Draft) (text : List UInt8)

def readKey (path : Pointer) (known : Table Draft) (text : List UInt8) :
    Except ReadError (String × List UInt8) :=
  match scan text with
  | .finished => .error .unclosed
  | .malformed => .error .malformed
  | .token (.scalar (.string key)) rest =>
    if (known.place? key).isSome then .error (.duplicateKey key path) else .ok (key, rest)
  | .token _ _ => .error (.expectedKey path)

def close (contents : Draft) (text : List UInt8) : Outcome :=
  match scan text with
  | .token _ rest => .ok (contents, rest)
  | .finished => .error .unclosed
  | .malformed => .error .malformed

namespace Call

/-- One step of a call, given what comes of the calls it makes. -/
def step (read : Call → Outcome) : Call → Outcome
  | .value path text =>
    match scan text with
    | .finished => .error .unexpectedEnd
    | .malformed => .error .malformed
    | .token (.scalar d) rest => .ok (.whole d, rest)
    | .token .closeObject _ => .error (.unexpectedDelimiter '\x7d' path)
    | .token .closeArray _ => .error (.unexpectedDelimiter ']' path)
    | .token .openObject rest => read (.members path .empty rest)
    | .token .openArray rest => read (.items path [] rest)
  | .members path known text =>
    if hasMore text then do
      let (key, rest) ← readKey path known text
      let (draft, rest) ← read (.value (path ++ [key]) rest)
      read (.members path (known.push key draft) rest)
    else close (.object known) text
  | .items path known text =>
    if hasMore text then do
      let (item, rest) ← read (.value (path ++ [toString known.length]) text)
      read (.items path (item :: known) rest)
    else close (.list known.reverse) text

/-- What comes of a call whose calls are nested less deep than the fuel. -/
def run : (fuel : Nat) → Call → Outcome
  | 0, .value .. => .error .unexpectedEnd
  | 0, _ => .error .unclosed
  | fuel + 1, call => call.step (run fuel)

end Call

def read (text : List UInt8) : Except ReadError Draft := do
  let (value, rest) ← Call.run (2 * text.length + 2) (.value [] text)
  match scan rest with
  | .finished => return value
  | _ => throw .trailingData

def parse (text : List UInt8) : Except ReadError Document :=
  (read text).map Draft.document

end SchemaCodec.Json
