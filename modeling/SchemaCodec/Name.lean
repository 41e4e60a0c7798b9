import SchemaCodec.Text.Cut
import SchemaCodec.Text.UpperCase

namespace SchemaCodec.Name

open SchemaCodec

/-! Names of declarations, derived from definition keys and file paths. -/

def capitalize : List Char → List Char
  | [] => []
  | c :: rest => Text.upper c :: rest

def joinKebab (text : List Char) : List Char :=
  (Text.splitOn '-' text).flatMap capitalize

def joinCaps (text : List Char) : List Char :=
  text.filter (· ≠ '-')

/-- Drop the hyphens; a text with small letters is capitalized part by part. -/
def joinAny (text : List Char) : List Char :=
  if Text.isUpper text then joinCaps text else joinKebab text

/-- Endings that mark a file as a schema. -/
def schemaSuffixes : List (List Char) :=
  [['.', 'j', 's', 'o', 'n'], ['.', 'y', 'a', 'm', 'l'], ['.', 'y', 'm', 'l']]

/-- The text before the first schema ending in it. -/
def stemOf : List Char → List Char
  | [] => []
  | c :: rest =>
    if schemaSuffixes.any (·.isPrefixOf (c :: rest)) then [] else c :: stemOf rest

def onText (derive : List Char → List Char) (text : String) : String :=
  String.ofList (derive text.toList)

def ofKebab : String → String :=
  onText joinKebab

def ofCaps : String → String :=
  onText joinCaps

def ofAny : String → String :=
  onText joinAny

/-- A path without its schema ending and all that follows it. -/
def stem : String → String :=
  onText stemOf

def ofFilePath : String → String :=
  onText fun path => joinAny (stemOf (Text.afterLast '/' path))

end SchemaCodec.Name
