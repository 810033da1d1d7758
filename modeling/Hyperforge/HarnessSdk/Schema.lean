import Hyperforge.Library.JsonSchema.Inline
import Hyperforge.Mcp.ToolSchema

/-!
# Schemas of tools

The schema of the input of a tool is sent to language models without references
(`flattenJsonSchema`): local ones are inlined, and definitions are removed, wherever an object
stands. The recursion is bounded by the number of calls, as by the interpreter.

What a schema should become is given by the positions that schemas have in it (`flattened`): those
of keywords that apply a schema, or several by the names of properties. Other keywords hold data,
which is no schema.
-/

namespace Hyperforge.HarnessSdk

open Json hiding Tree
open JsonSchema
open Mcp (replaceEscape listIndex)

inductive SchemaError
  | external (ref : Str)
  | recursive (ref : Str)
  | notFound (ref : Str)
  | notObject (ref : Str)
  | refNotString
  | recursionError
  deriving DecidableEq

def SchemaError.message : SchemaError → Str
  | external ref => .ofString "External JSON Schema references are not supported: " ++ ref
  | recursive ref => .ofString "Recursive JSON Schema reference cannot be flattened: " ++ ref
  | notFound ref => .ofString "JSON Schema reference not found: " ++ ref
  | notObject ref => .ofString "JSON Schema reference must resolve to an object: " ++ ref
  | refNotString => .ofString "JSON Schema $ref must be a string"
  | recursionError => .ofString "maximum recursion depth exceeded"

section Flatten

variable {F : Type} (root : Object F)

def isLocal (ref : Str) : Bool := (Str.ofString "#/").isPrefixOf ref

/-- The parts of a reference, without their escapes. -/
def parts (ref : Str) : List Str :=
  ((ref.drop 2).splitOn (.scalar '/')).map fun rawPart =>
    replaceEscape '0' '~' (replaceEscape '1' '/' rawPart)

/-- A step of a reference, through objects. -/
def part : Json.Tree F → Str → Option (Json.Tree F)
  | .obj value, part => value.lookup part
  | _, _ => none

/-- The object that a reference is to. -/
def findTarget (ref : Str) : Except SchemaError (Object F) :=
  match (parts ref).foldlM part (.obj root) with
  | none => .error (.notFound ref)
  | some (.obj value) => .ok value
  | some _ => .error (.notObject ref)

/-- What a reference is to, once walked. -/
def resolve (walk : List Str → Json.Tree F → Except SchemaError (Json.Tree F))
    (stack : List Str) (ref : Str) : Except SchemaError (Object F) :=
  if !isLocal ref then .error (.external ref)
  else if ref ∈ stack then .error (.recursive ref)
  else do
    let value ← findTarget root ref
    members <$> walk (stack ++ [ref]) (.obj value)

/-- An object in place of its reference. -/
def replaceReference (walk : List Str → Json.Tree F → Except SchemaError (Json.Tree F))
    (stack : List Str) (value : Object F) : Except SchemaError (Object F) :=
  match value.lookup refKeyword with
  | none | some .null => .ok (pop refKeyword value)
  | some (.str ref) => do
    let resolved ← resolve root walk stack ref
    .ok (update resolved (pop refKeyword value))
  | some _ => .error .refNotString

def popDefinitions (value : Object F) : Object F :=
  pop (.ofString "definitions") (pop (.ofString "$defs") value)

def walk : (calls : ℕ) → (stack : List Str) → Json.Tree F → Except SchemaError (Json.Tree F)
  | 0, _, _ => .error .recursionError
  | calls + 1, stack, .arr items => .arr <$> items.mapM (walk calls stack)
  | calls + 1, stack, .obj value => do
    let current ← replaceReference root (walk calls) stack value
    .obj <$> (popDefinitions current).mapM fun m => (m.1, ·) <$> walk calls stack m.2
  | _ + 1, _, value => .ok value

def flattenJsonSchema (calls : ℕ) (schema : Object F) : Except SchemaError (Json.Tree F) :=
  walk schema calls [] (.obj schema)

end Flatten

/-! ## What a schema should become -/

/-- The keywords whose value is a schema, or an array of schemas. -/
def schemaKeywords : List String :=
  ["additionalItems", "additionalProperties", "allOf", "anyOf", "contains", "contentSchema", "else",
    "if", "items", "not", "oneOf", "prefixItems", "propertyNames", "then", "unevaluatedItems",
    "unevaluatedProperties"]

/-- The keywords whose value is a map of schemas, by names of properties. -/
def schemaMapKeywords : List String :=
  ["dependencies", "dependentSchemas", "patternProperties", "properties"]

def keywordKind (keyword : Str) : Kind :=
  if keyword ∈ schemaKeywords.map Str.ofString then .schema
  else if keyword ∈ schemaMapKeywords.map Str.ofString then .schemas
  else .data

section Flattened

variable {F : Type} (root : Object F)

/-- A step of a pointer, through objects and arrays. -/
def pointerStep : Json.Tree F → Str → Option (Json.Tree F)
  | .obj value, part => value.lookup part
  | .arr items, part => listIndex part >>= (items[·]?)
  | _, _ => none

/-- What the reference of a schema is to, if it has one: an object of the document. -/
def schemaTarget : Option (Json.Tree F) → Option (Option (Object F))
  | none => some none
  | some (.str ref) =>
    if isLocal ref then
      match (parts ref).foldlM pointerStep (.obj root) with
      | some (.obj target) => some (some target)
      | _ => none
    else none
  | some _ => none

/-- The local references of a schema exist, and have no circles. -/
def ReferencesResolve : Prop := Resolves keywordKind (schemaTarget root) (.obj root)

/-- A schema without its references: they are replaced by what they are to, overlaid with the
    keywords beside them, at all the positions of schemas. -/
def Flattened (t : Json.Tree F) : Prop := Inlines keywordKind (schemaTarget root) (.obj root) t

end Flattened

end Hyperforge.HarnessSdk
