import SchemaCodec.Codec.Basic

namespace SchemaCodec.Codec

open SchemaCodec

/-! The names and brands that occur in a codec, each once, in the order of first occurrence. -/

/-- Add an entry unless its key is already there. -/
def addNew [BEq κ] (key : α → κ) (known : List α) (entry : α) : List α :=
  if known.any fun other => key other == key entry then known else known ++ [entry]

/-- Keep the first entry of every key. -/
def distinctBy [BEq κ] (key : α → κ) (entries : List α) : List α :=
  entries.foldl (addNew key) []

mutual

def references : Codec → List String
  | .identifier name => [name]
  | .custom _ _ dependencies => dependencies
  | .object _ properties => propertyReferences properties
  | .wrapper _ inner => inner.references
  | .group _ members => memberReferences members
  | .record domain codomain => domain.references ++ codomain.references
  | .brand inner _ _ => inner.references
  | _ => []

def propertyReferences : List (Property Codec) → List String
  | [] => []
  | ⟨_, type, _, _⟩ :: rest => type.references ++ propertyReferences rest

def memberReferences : List Codec → List String
  | [] => []
  | member :: rest => member.references ++ memberReferences rest

end

def dependencies (codec : Codec) : List String :=
  distinctBy id codec.references

mutual

/-- The names of the brands in a codec, outer ones first, repetitions included. -/
def brandNames : Codec → List String
  | .object _ properties => propertyBrandNames properties
  | .wrapper _ inner => inner.brandNames
  | .group _ members => memberBrandNames members
  | .record domain codomain => domain.brandNames ++ codomain.brandNames
  | .brand inner _ name => name :: inner.brandNames
  | _ => []

def propertyBrandNames : List (Property Codec) → List String
  | [] => []
  | ⟨_, type, _, _⟩ :: rest => type.brandNames ++ propertyBrandNames rest

def memberBrandNames : List Codec → List String
  | [] => []
  | member :: rest => member.brandNames ++ memberBrandNames rest

end

def brands (codec : Codec) : List String :=
  distinctBy id codec.brandNames

end SchemaCodec.Codec
