import SchemaCodec.Yaml.Node
import SchemaCodec.Yaml.Scanner
import SchemaCodec.Yaml.Source

namespace SchemaCodec.Yaml

/-! From tokens to nodes. -/

/-- What is known while a document is read. An anchor has no node while its node is read. -/
structure Reading where
  scanner : Scanner
  /-- Handles of tags and what they stand for. -/
  handles : List (String × String)
  /-- Anchors in their order. -/
  anchors : List (String × Option Node)

/-- Steps of reading; `none` where the text is no document. -/
abbrev Step := StateT Reading Option

namespace Step

def refuse : Step α :=
  fun _ => none

def peek : Step Token := fun r =>
  match r.scanner.peek with
  | none => none
  | some (token, scanner) => some (token, { r with scanner := scanner })

def drop : Step Unit := fun r =>
  some ((), { r with scanner := r.scanner.drop })

def advance : Step Token := do
  drop
  peek

/-- Announce the node of an anchor. -/
def announce (anchor : Option String) : Step Nat := fun r =>
  match anchor with
  | none => some (r.anchors.length, r)
  | some name => some (r.anchors.length, { r with anchors := r.anchors ++ [(name, none)] })

/-- Give the node of an anchor that was announced at an index. -/
def settle (anchor : Option String) (index : Nat) (node : Node) : Step Node := fun r =>
  match anchor with
  | none => some (node, r)
  | some name => some (node, { r with anchors := r.anchors.set index (name, some node) })

/-- An alias of the last anchor before it of that name. The node of the anchor may still be read. -/
def aliasOf (position : Document.Position) (name : String) : Step Node := fun r =>
  match r.anchors.reverse.lookup name with
  | some (some node) => some (.alias position name node, r)
  | some none => some (.circular position name, r)
  | none => none

def expandTag (handle suffix : String) : Step String := fun r =>
  if handle = "" then some (suffix, r)
  else match r.handles.lookup handle with
    | none => none
    | some uri => if uri ++ suffix = "" then none else some (uri ++ suffix, r)

end Step

open Step

structure Properties where
  start : Mark
  anchor : Option String
  tag : Option String

def properties : Step (Properties × Token) := do
  let token ← peek
  match token.kind with
  | .anchor name =>
    let next ← advance
    match next.kind with
    | .tag handle suffix =>
      let behind ← advance
      let tag ← expandTag handle suffix
      return (⟨token.start, some name, some tag⟩, behind)
    | _ => return (⟨token.start, some name, none⟩, next)
  | .tag handle suffix =>
    let next ← advance
    match next.kind with
    | .anchor name =>
      let behind ← advance
      let tag ← expandTag handle suffix
      return (⟨token.start, some name, some tag⟩, behind)
    | _ =>
      let tag ← expandTag handle suffix
      return (⟨token.start, none, some tag⟩, next)
  | _ => return (⟨token.start, none, none⟩, token)

/-- The node that is meant where there is none. -/
def emptyNode (mark : Mark) : Node :=
  .scalar mark.position none true ""

inductive Place where
  /-- Between brackets. -/
  | flow
  | block
  /-- In a mapping, where a sequence need not be indented. -/
  | inMapping
  deriving DecidableEq, Repr

def isOneOf (token : Token) (kinds : List Token.Kind) : Bool :=
  kinds.contains token.kind

mutual
def node : Nat → Place → Step Node
  | 0, _ => refuse
  | fuel + 1, place => do
    let first ← peek
    match first.kind with
    | .alias name =>
      drop
      aliasOf first.start.position name
    | _ => content fuel place (← properties)

def content : Nat → Place → Properties × Token → Step Node
  | 0, _, _ => refuse
  | fuel + 1, place, (p, token) => do
    let position := p.start.position
    let index ← announce p.anchor
    match token.kind with
    | .scalar text isPlain =>
      drop
      settle p.anchor index (.scalar position p.tag isPlain text)
    | .blockEntry =>
      if place = .inMapping then
        let items ← looseItems fuel []
        settle p.anchor index (.sequence position items)
      else bare p index
    | .flowSequenceStart =>
      drop
      let items ← flowItems fuel true []
      settle p.anchor index (.sequence position items)
    | .flowMappingStart =>
      drop
      let pairs ← flowPairs fuel true []
      settle p.anchor index (.mapping position pairs)
    | .blockSequenceStart =>
      if place = .flow then bare p index
      else
        drop
        let items ← blockItems fuel []
        settle p.anchor index (.sequence position items)
    | .blockMappingStart =>
      if place = .flow then bare p index
      else
        drop
        let pairs ← blockPairs fuel []
        settle p.anchor index (.mapping position pairs)
    | _ => bare p index

/-- A node of properties alone. -/
def bare (p : Properties) (index : Nat) : Step Node :=
  if p.anchor.isNone && p.tag.isNone then refuse
  else settle p.anchor index (.scalar p.start.position p.tag true "")

/-- The node behind a mark, or an empty one before one of the given kinds of tokens. -/
def nodeUnless (kinds : List Token.Kind) (mark : Mark) : Nat → Place → Step Node
  | 0, _ => refuse
  | fuel + 1, place => do
    if isOneOf (← peek) kinds then return emptyNode mark
    node fuel place

/-- The items of a block sequence. Items that are read are given in reverse. -/
def blockItems : Nat → List Node → Step (List Node)
  | 0, _ => refuse
  | fuel + 1, read => do
    let token ← peek
    match token.kind with
    | .blockEntry =>
      drop
      let item ← nodeUnless [.blockEntry, .blockEnd] token.stop fuel .block
      blockItems fuel (item :: read)
    | .blockEnd =>
      drop
      return read.reverse
    | _ => refuse

/-- The items of a sequence in a mapping that is not indented. -/
def looseItems : Nat → List Node → Step (List Node)
  | 0, _ => refuse
  | fuel + 1, read => do
    let token ← peek
    match token.kind with
    | .blockEntry =>
      drop
      let item ← nodeUnless [.blockEntry, .key, .value, .blockEnd] token.stop fuel .block
      looseItems fuel (item :: read)
    | _ => return read.reverse

def blockPairs : Nat → List (Node × Node) → Step (List (Node × Node))
  | 0, _ => refuse
  | fuel + 1, read => do
    let token ← peek
    match token.kind with
    | .key =>
      drop
      let key ← nodeUnless [.key, .value, .blockEnd] token.stop fuel .inMapping
      let value ← blockValue fuel
      blockPairs fuel ((key, value) :: read)
    | .blockEnd =>
      drop
      return read.reverse
    | _ => refuse

def blockValue : Nat → Step Node
  | 0 => refuse
  | fuel + 1 => do
    let token ← peek
    match token.kind with
    | .value =>
      drop
      nodeUnless [.key, .value, .blockEnd] token.stop fuel .inMapping
    | _ => return emptyNode token.start

/-- The items of a sequence between brackets, the first or a later one. -/
def flowItems : Nat → Bool → List Node → Step (List Node)
  | 0, _, _ => refuse
  | fuel + 1, isFirst, read => do
    let token ← peek
    match token.kind with
    | .flowSequenceEnd =>
      drop
      return read.reverse
    | kind =>
      if !isFirst && kind != .flowEntry then refuse
      else
        let token ← if isFirst then pure token else advance
        match token.kind with
        | .flowSequenceEnd =>
          drop
          return read.reverse
        | .key =>
          drop
          let (key, value) ← flowPair fuel
          flowItems fuel false (.mapping token.start.position [(key, value)] :: read)
        | _ =>
          let item ← node fuel .flow
          flowItems fuel false (item :: read)

/-- A single pair among the items of a sequence. The token where its key is missing is skipped. -/
def flowPair : Nat → Step (Node × Node)
  | 0 => refuse
  | fuel + 1 => do
    let token ← peek
    let key ←
      if isOneOf token [.value, .flowEntry, .flowSequenceEnd] then do
        drop
        pure (emptyNode token.stop)
      else node fuel .flow
    let token ← peek
    match token.kind with
    | .value =>
      drop
      return (key, ← nodeUnless [.flowEntry, .flowSequenceEnd] token.start fuel .flow)
    | _ => return (key, emptyNode token.start)

def flowPairs : Nat → Bool → List (Node × Node) → Step (List (Node × Node))
  | 0, _, _ => refuse
  | fuel + 1, isFirst, read => do
    let token ← peek
    match token.kind with
    | .flowMappingEnd =>
      drop
      return read.reverse
    | kind =>
      if !isFirst && kind != .flowEntry then refuse
      else
        let token ← if isFirst then pure token else advance
        match token.kind with
        | .flowMappingEnd =>
          drop
          return read.reverse
        | .key =>
          let next ← advance
          let key ← nodeUnless [.value, .flowEntry, .flowMappingEnd] next.start fuel .flow
          let value ← flowValue fuel
          flowPairs fuel false ((key, value) :: read)
        | _ =>
          let key ← node fuel .flow
          let next ← peek
          flowPairs fuel false ((key, emptyNode next.start) :: read)

def flowValue : Nat → Step Node
  | 0 => refuse
  | fuel + 1 => do
    let token ← peek
    match token.kind with
    | .value =>
      let next ← advance
      nodeUnless [.flowEntry, .flowMappingEnd] next.start fuel .flow
    | _ => return emptyNode token.start
end

/-- The handles of tags that need no directive. -/
def commonHandles : List (String × String) :=
  [("!", "!"), ("!!", "tag:yaml.org,2002:")]

/-- The directives of a document: whether a version was told, and the handles of tags. -/
def directives : Nat → Bool → List (String × String) → Step (List (String × String))
  | 0, _, _ => refuse
  | fuel + 1, versioned, handles => do
    match (← peek).kind with
    | .versionDirective major minor =>
      if versioned || major != 1 || minor != 1 then refuse
      else
        drop
        directives fuel true handles
    | .tagDirective handle uri =>
      if (handles.lookup handle).isSome then refuse
      else
        drop
        directives fuel versioned (handles ++ [(handle, uri)])
    | _ => return handles

def document (fuel : Nat) : Step (Option Node) := do
  drop
  let token ← peek
  match token.kind with
  | .streamEnd => return none
  | .versionDirective .. | .tagDirective .. | .documentStart =>
    let handles ← directives fuel false []
    modify fun r => { r with handles := handles ++ commonHandles }
    if (← peek).kind != .documentStart then refuse
    else
      let next ← advance
      match next.kind with
      | .versionDirective .. | .tagDirective .. | .documentStart | .documentEnd | .streamEnd =>
        return emptyNode next.start
      | _ => finish (← node fuel .block)
  | _ => finish (← node fuel .block)
where
  /-- The token behind the document must be known. -/
  finish (root : Node) : Step (Option Node) := do
    let _ ← peek
    return some root

/-- The root of the first document of a stream. An empty stream has none. -/
def Node.ofBytes (bytes : List UInt8) : Option (Option Node) :=
  let source := Source.decode bytes
  let reading : Reading := ⟨.start source.chars source.broken, commonHandles, []⟩
  ((document (8 * source.chars.length + 64)).run reading).map Prod.fst

end SchemaCodec.Yaml
