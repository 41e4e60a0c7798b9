import SchemaCodec.Conversion.Definition

namespace SchemaCodec.Link

/-! Endpoints: the link of a document that describes its implementation, as definitions of the
address, of headers and of bodies. -/

def relation : String :=
  "implementation"

/-- A part of an endpoint: the member of the link it comes from, the ending of its name, its schema,
and a title and description that take the place of the schema's own. -/
structure Section where
  key : String
  suffix : String
  schema : Except Fault Document
  heading : Option (String × String)

def member (index : Nat) (link : Document) (key : String) : Except Fault Document :=
  match link.get? key with
  | some value => .ok value
  | none => .error (.link (.missing index key))

def memberMap (index : Nat) (link : Document) (key : String) :
    Except Fault (List (String × Document)) := do
  match ← member index link key with
  | .object members => return members
  | _ => .error (.link (.notObject index key))

def addressOf (template : String) : Document :=
  .object
    [("title", .string "Href Template"),
     ("description", .string "Href body format as described by hyper schema href."),
     ("type", .string "string"),
     ("const", .string template),
     ("default", .string template)]

def addressSchema (check : String → Except Template.Error Unit) (index : Nat) (link : Document) :
    Except Fault Document := do
  match ← member index link "href" with
  | .string template =>
    match check template with
    | .error cause => .error (.address template cause)
    | .ok () => return addressOf template
  | _ => .error (.link (.addressNotString index))

def headerTypes : Document :=
  .object
    [("type", .string "object"),
     ("additionalProperties", .object [("type", .string "string")])]

/-- The given headers must be there, and there may be others. -/
def givenHeaders (properties : List (String × Document)) : Document :=
  .object
    [("type", .string "object"),
     ("properties", .object properties),
     ("required", .array (properties.map fun property => .string property.1)),
     ("additionalProperties", .bool true)]

def headersSchema (title description : String) (properties : List (String × Document)) :
    List (String × Document) :=
  [("title", .string title),
   ("description", .string description),
   ("allOf", .array [headerTypes, givenHeaders properties])]

def requestHeaders (index : Nat) (link : Document) : Except Fault Document := do
  let properties ← memberMap index link "headerSchema"
  return .object (headersSchema "Request Headers"
    "Request headers format as described by hyper schema headerSchema." properties)

def hintText (values : List Document) : String :=
  ", ".intercalate (values.map fun value => value.string?.getD value.encode)

def hint (index : Nat) : String × Document → Except Fault (String × String)
  | (key, .array values) => .ok (key, hintText values)
  | (key, _) => .error (.link (.hintNotArray index key))

def constantHeader (text : String) : Document :=
  .object [("type", .string "string"), ("const", .string text)]

def headersOf (hints : List (String × String)) : Document :=
  .object (hints.map fun hint => (hint.1, .string hint.2))

def responseHeaders (index : Nat) (link : Document) : Except Fault Document := do
  let hints ← (← memberMap index link "targetHints").mapM (hint index)
  let properties := hints.map fun hint => (hint.1, constantHeader hint.2)
  return .object (headersSchema "Response Headers"
    "Response headers format as described by hyper schema targetHints." properties ++
    [("default", headersOf hints)])

def sections (check : String → Except Template.Error Unit) (index : Nat) (link : Document) :
    List Section :=
  [⟨"href", "Href", addressSchema check index link, none⟩,
   ⟨"hrefSchema", "HrefSchema", member index link "hrefSchema",
     some ("Href Variables", "Href variable format as described by hyper schema hrefSchema.")⟩,
   ⟨"headerSchema", "HeaderSchema", requestHeaders index link, none⟩,
   ⟨"submissionSchema", "SubmissionSchema", member index link "submissionSchema",
     some ("Request Body", "Request body format as described by hyper schema submissionSchema.")⟩,
   ⟨"targetHints", "TargetHints", responseHeaders index link, none⟩,
   ⟨"targetSchema", "TargetSchema", member index link "targetSchema",
     some ("Response Body", "Response body format as described by hyper schema targetschema.")⟩]

open Conversion in
def define (scope : Scope) (index : Nat) (part : Section) : Conversion Definition := do
  let schema ← ofExcept part.schema
  let name := "_links_" ++ relation ++ "_" ++ part.suffix
  let location := Location.root.down ["links", toString index, part.key]
  let metadata ← ofExcept (Metadata.ofSchema location schema)
  let inner ← compile scope true location schema
  let codec ← brand name inner schema
  let definition : Definition := ⟨.plain name codec, metadata⟩
  match part.heading with
  | some (title, description) => return definition.describe title description
  | none => return definition

def isImplementation (link : Document) : Bool :=
  link.stringAt? "rel" == some relation

/-- The links that describe an implementation, with their positions. -/
def implementations (links : List Document) : List (Document × Nat) :=
  links.zipIdx.filter fun link => isImplementation link.1

/-- Go on with the one link that describes the implementation, if there is one and no other. -/
def expandLinks (check : String → Except Template.Error Unit) (scope : Scope)
    (links : List Document) : Conversion (List Definition) := do
  let found := implementations links
  if 1 < found.length then
    Conversion.warn "found several links where rel=\"implementation\""
    return []
  if found.length ≠ links.length then
    Conversion.warn
      "only hyper schema links with rel=\"implementation\" are supported at the moment"
  match found with
  | [] => return []
  | (link, index) :: _ =>
    Conversion.require .codecs
    Conversion.each (define scope index) (sections check index link)

/-- The definitions of the endpoint that a document describes, with the given check of addresses. -/
def expandBy (check : String → Except Template.Error Unit) (scope : Scope) (root : Document) :
    Conversion (List Definition) :=
  match root.get? "links" with
  | none => .pure []
  | some (.array links) => expandLinks check scope links
  | some _ => .stop (.link .notArray)

def expand (scope : Scope) (root : Document) : Conversion (List Definition) :=
  expandBy Template.check scope root

end SchemaCodec.Link
