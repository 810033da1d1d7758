import Hyperforge.Library.JsonSchema

/-!
# The schemas of tools

The input schema of a tool of an MCP server is rewritten to one that every provider of
language models accepts (`normalizeToolSchema`): local references are replaced by
what they refer to, definitions and some annotations are dropped, and types are inferred
where they are missing. A schema that cannot be is refused, with the path of what is wrong.

The rewriting is recursive, with a bound on its depth, that of the stack: beyond it, a
schema is refused as too deep. Dictionaries are lists of members.
-/

namespace Hyperforge.Mcp

open Json hiding Tree

abbrev Members (F : Type) := List (Str × Json.Tree F)

def jsonSchemaTypes : List Str :=
  ["array", "boolean", "integer", "number", "object", "string"].map .ofString

def annotationKeywords : List Str := ["default", "description", "title", "example"].map .ofString

def ignoredAnnotationKeywords : List Str :=
  ["$comment", "deprecated", "examples", "readOnly", "writeOnly"].map .ofString

def nuaSchemaMapKeywords : List Str := ["properties"].map .ofString
def nuaSchemaValueKeywords : List Str := ["additionalProperties", "items"].map .ofString
def nuaSchemaListKeywords : List Str := ["anyOf"].map .ofString

def nuaCommonKeywords : List Str :=
  annotationKeywords ++ ignoredAnnotationKeywords ++ nuaSchemaMapKeywords ++
    nuaSchemaValueKeywords ++ nuaSchemaListKeywords ++
    ["$defs", "$ref", "$schema", "definitions", "enum", "format", "maxItems", "maxLength",
      "maxProperties", "maximum", "minItems", "minLength", "minProperties", "minimum", "pattern",
      "required", "type"].map .ofString

/-! ## Errors -/

/-- Why a schema is refused. -/
inductive Reason
  | notObject
  | tooDeep
  | notObjectType
  | unsupportedKeyword
  | remoteReference
  | invalidReference (reference : Str)
  | unresolvedReference (reference : Str)
  | cyclicReference
  | referenceToValue
  | referenceSiblings
  | notMap
  | noAlternatives
  | noType
  | unsupportedType
  | notUniqueStrings
  | notStrings
  | notString
  | notCount
  | notNumber
  deriving DecidableEq

/-- The text of the reason, given how texts are shown. -/
def Reason.text (repr : Str → String) : Reason → String
  | notObject => "schema must be an object"
  | tooDeep => "schema nesting is too deep"
  | notObjectType => "tool input schema must have type 'object'"
  | unsupportedKeyword => "keyword is not supported by all NUA providers"
  | remoteReference => "only local references are supported"
  | invalidReference reference => "invalid local reference " ++ repr reference
  | unresolvedReference reference => "unresolved local reference " ++ repr reference
  | cyclicReference => "cyclic local reference"
  | referenceToValue => "local reference must resolve to an object"
  | referenceSiblings =>
    "$ref siblings with validation constraints are not supported by all NUA providers"
  | notMap => "must be an object"
  | noAlternatives => "must be a non-empty array"
  | noType => "schema must declare or imply a supported type"
  | unsupportedType => "type is not supported by all NUA providers"
  | notUniqueStrings => "must be an array of unique strings"
  | notStrings => "must be a non-empty array of strings"
  | notString => "must be a string"
  | notCount => "must be a non-negative integer"
  | notNumber => "must be a number"

structure IncompatibleToolSchema where
  path : List Str
  reason : Reason
  deriving DecidableEq

/-! ## References -/

/-- The value of a hexadecimal digit. -/
def hexValue (c : Char) : Option ℕ :=
  if '0' ≤ c ∧ c ≤ '9' then some (c.toNat - '0'.toNat)
  else if 'A' ≤ c ∧ c ≤ 'F' then some (c.toNat - 'A'.toNat + 10)
  else if 'a' ≤ c ∧ c ≤ 'f' then some (c.toNat - 'a'.toNat + 10)
  else none

/-- A `%` that two hexadecimal digits do not follow. -/
def invalidPercentEscape : Str → Bool
  | [] => false
  | .scalar '%' :: rest =>
    (match rest with
      | .scalar a :: .scalar b :: _ => (hexValue a).isNone || (hexValue b).isNone
      | _ => true) || invalidPercentEscape rest
  | _ :: rest => invalidPercentEscape rest

/-- A `~` that neither `0` nor `1` follows. -/
def invalidPointerEscape : Str → Bool
  | [] => false
  | .scalar '~' :: rest =>
    (match rest with
      | .scalar c :: _ => c != '0' && c != '1'
      | _ => true) || invalidPointerEscape rest
  | _ :: rest => invalidPointerEscape rest

/-- The bytes of a text of ASCII characters, the escaped ones in their place. -/
def unquoteToBytes : List Char → List UInt8
  | [] => []
  | '%' :: a :: b :: rest =>
    match hexValue a, hexValue b with
    | some m, some n => (16 * m + n).toUInt8 :: unquoteToBytes rest
    | _, _ => '%'.toNat.toUInt8 :: unquoteToBytes (a :: b :: rest)
  | c :: rest => c.toNat.toUInt8 :: unquoteToBytes rest

/-- `unquote`, with strict errors: the escapes of each run of ASCII characters have to be
    the encoding of a text. `run` is what the run has so far. -/
def unquote (run : List Char) : Str → Option Str
  | [] => decodeUtf8 ⟨(unquoteToBytes run).toArray⟩
  | .scalar c :: rest =>
    if c.toNat < 128 then unquote (run ++ [c]) rest
    else do
      let s ← decodeUtf8 ⟨(unquoteToBytes run).toArray⟩
      let t ← unquote [] rest
      some (s ++ .scalar c :: t)
  | p :: rest => do
    let s ← decodeUtf8 ⟨(unquoteToBytes run).toArray⟩
    let t ← unquote [] rest
    some (s ++ p :: t)

/-- A text with the escape of a character replaced by it. -/
def replaceEscape (code char : Char) : Str → Str
  | [] => []
  | [p] => [p]
  | p :: q :: rest =>
    if p = .scalar '~' ∧ q = .scalar code then .scalar char :: replaceEscape code char rest
    else p :: replaceEscape code char (q :: rest)

/-- The zeros of the decimal digits. -/
def decimalZeros : List ℕ :=
  [0x30, 0x660, 0x6F0, 0x7C0, 0x966, 0x9E6, 0xA66, 0xAE6, 0xB66, 0xBE6, 0xC66, 0xCE6, 0xD66,
    0xDE6, 0xE50, 0xED0, 0xF20, 0x1040, 0x1090, 0x17E0, 0x1810, 0x1946, 0x19D0, 0x1A80, 0x1A90,
    0x1B50, 0x1BB0, 0x1C40, 0x1C50, 0xA620, 0xA8D0, 0xA900, 0xA9D0, 0xA9F0, 0xAA50, 0xABF0, 0xFF10,
    0x104A0, 0x10D30, 0x11066, 0x110F0, 0x11136, 0x111D0, 0x112F0, 0x11450, 0x114D0, 0x11650,
    0x116C0, 0x11730, 0x118E0, 0x11950, 0x11C50, 0x11D50, 0x11DA0, 0x11F50, 0x16A60, 0x16AC0,
    0x16B50, 0x1D7CE, 0x1D7D8, 0x1D7E2, 0x1D7EC, 0x1D7F6, 0x1E140, 0x1E2F0, 0x1E4F0, 0x1E950,
    0x1FBF0]

/-- The value of a decimal digit. -/
def decimal : CodePoint → Option ℕ
  | .scalar c =>
    (decimalZeros.find? fun z => z ≤ c.toNat ∧ c.toNat < z + 10).map fun z => c.toNat - z
  | .surrogate _ => none

/-- The index that a part of a pointer is: `0`, or digits that do not begin with it. -/
def listIndex (part : Str) : Option ℕ :=
  if part = .ofString "0" then some 0
  else if part = [] ∨ part.head? = some (.scalar '0') ∨ part.length > 4300 then none
  else (part.mapM decimal).map fun digits => digits.foldl (fun n d => 10 * n + d) 0

section

variable {F : Type}

/-- A step of a pointer. -/
def resolvePart (reference : Str) (path : List Str) (target : Json.Tree F) (encodedPart : Str) :
    Except IncompatibleToolSchema (Json.Tree F) :=
  if invalidPointerEscape encodedPart then .error ⟨path, .invalidReference reference⟩
  else
    let part := replaceEscape '0' '~' (replaceEscape '1' '/' encodedPart)
    match target with
    | .obj members =>
      match members.lookup part with
      | some target => .ok target
      | none => .error ⟨path, .unresolvedReference reference⟩
    | .arr items =>
      match (listIndex part).bind (items[·]?) with
      | some target => .ok target
      | none => .error ⟨path, .unresolvedReference reference⟩
    | _ => .error ⟨path, .unresolvedReference reference⟩

/-- `_resolve_reference` -/
def resolveReference (root : Members F) (reference pointer : Str) (path : List Str) :
    Except IncompatibleToolSchema (Members F) := do
  let target ← (pointer.tail.splitOn (.scalar '/')).foldlM (resolvePart reference path) (.obj root)
  match target with
  | .obj members => .ok members
  | _ => .error ⟨path, .referenceToValue⟩

/-- The pointer of a local reference. -/
def localPointer (reference : Json.Tree F) (path : List Str) :
    Except IncompatibleToolSchema (Str × Str) :=
  match reference with
  | .str (.scalar '#' :: fragment) =>
    let reference := .scalar '#' :: fragment
    if invalidPercentEscape fragment then .error ⟨path, .invalidReference reference⟩
    else match unquote [] fragment with
      | none => .error ⟨path, .invalidReference reference⟩
      | some pointer =>
        if pointer.head? = some (.scalar '/') then .ok (reference, pointer)
        else .error ⟨path, .remoteReference⟩
  | _ => .error ⟨path, .remoteReference⟩

/-! ## Normalization -/

/-- The local reference of a schema is replaced by what it refers to, normalized, which
    annotations next to the reference amend. -/
def inlineReference (root : Members F)
    (normalize : Json.Tree F → (resolving : List Str) → Except IncompatibleToolSchema (Members F))
    (current : Members F) (path resolving : List Str) :
    Except IncompatibleToolSchema (Members F) := do
  let reference := current.lookup (.ofString "$ref")
  let current := pop (.ofString "$ref") current
  match reference with
  | none | some .null => .ok current
  | some reference =>
    let refPath := path ++ [.ofString "$ref"]
    let (reference, pointer) ← localPointer reference refPath
    if pointer ∈ resolving then .error ⟨refPath, .cyclicReference⟩
    let target ← resolveReference root reference pointer refPath
    let resolved ← normalize (.obj target) (resolving ++ [pointer])
    let annotations := current.filter (·.1 ∈ annotationKeywords)
    let current := pop (.ofString "definitions") (pop (.ofString "$defs")
      (current.filter (·.1 ∉ annotationKeywords)))
    if current ≠ [] then .error ⟨path, .referenceSiblings⟩
    .ok (update resolved annotations)

/-- The value of a keyword is a dictionary of schemas, and each is normalized. -/
def normalizeSchemaMap
    (normalize : Json.Tree F → (path : List Str) → Except IncompatibleToolSchema (Members F))
    (keyword : Str) (path : List Str) (schema : Members F) :
    Except IncompatibleToolSchema (Members F) :=
  match schema.lookup keyword with
  | none | some .null => .ok schema
  | some (.obj values) => do
    let values ← values.mapM fun (name, value) => do
      let value ← normalize value (path ++ [keyword, name])
      .ok (name, .obj value)
    .ok (assign keyword (.obj values) schema)
  | some _ => .error ⟨path ++ [keyword], .notMap⟩

/-- The value of a keyword is a schema, and is normalized. -/
def normalizeSchemaValue
    (normalize : Json.Tree F → (path : List Str) → Except IncompatibleToolSchema (Members F))
    (keyword : Str) (path : List Str) (schema : Members F) :
    Except IncompatibleToolSchema (Members F) :=
  match schema.lookup keyword with
  | none => .ok schema
  | some value => do
    let value ← normalize value (path ++ [keyword])
    .ok (assign keyword (.obj value) schema)

/-- `additionalProperties` may also be a boolean. -/
def normalizeAdditionalProperties
    (normalize : Json.Tree F → (path : List Str) → Except IncompatibleToolSchema (Members F))
    (path : List Str) (schema : Members F) : Except IncompatibleToolSchema (Members F) :=
  match schema.lookup (.ofString "additionalProperties") with
  | some (.bool _) => .ok schema
  | _ => normalizeSchemaValue normalize (.ofString "additionalProperties") path schema

/-- The value of a keyword is a non-empty list of schemas, and each is normalized. -/
def normalizeSchemaList
    (normalize : Json.Tree F → (path : List Str) → Except IncompatibleToolSchema (Members F))
    (keyword : Str) (path : List Str) (schema : Members F) :
    Except IncompatibleToolSchema (Members F) :=
  match schema.lookup keyword with
  | none | some .null => .ok schema
  | some (.arr alternatives) =>
    if alternatives = [] then .error ⟨path ++ [keyword], .noAlternatives⟩
    else do
      let alternatives ← alternatives.zipIdx.mapM fun (alternative, index) => do
        let alternative ← normalize alternative (path ++ [keyword, chars (Nat.toDigits 10 index)])
        .ok (.obj alternative)
      .ok (assign keyword (.arr alternatives) schema)
  | some _ => .error ⟨path ++ [keyword], .noAlternatives⟩

/-- The text that a value is. -/
def asString : Json.Tree F → Option Str
  | .str s => some s
  | _ => none

/-- The value is an array of unique strings. -/
def areUniqueStrings : Json.Tree F → Bool
  | .arr items => items.all (fun x => (asString x).isSome) && (items.filterMap asString).Nodup
  | _ => false

/-- The value is a non-empty array of strings. -/
def areStrings : Json.Tree F → Bool
  | .arr items => !items.isEmpty && items.all fun x => (asString x).isSome
  | _ => false

def isCount : Json.Tree F → Bool
  | .int i => 0 ≤ i
  | _ => false

def isNumber : Json.Tree F → Bool
  | .int _ | .float _ => true
  | _ => false

/-- The check of a keyword, if it is there. -/
def checkKeyword (schema : Members F) (path : List Str) (check : Json.Tree F → Bool)
    (reason : Reason) (keyword : String) : Except IncompatibleToolSchema Unit :=
  match schema.lookup (.ofString keyword) with
  | some value =>
    if check value then .ok () else .error ⟨path ++ [.ofString keyword], reason⟩
  | none => .ok ()

/-- The value is missing, or passes the check. -/
def nullOr (check : Json.Tree F → Bool) : Json.Tree F → Bool
  | .null => true
  | value => check value

/-- `_validate_keyword_values` -/
def validateKeywordValues (schema : Members F) (path : List Str) :
    Except IncompatibleToolSchema Unit := do
  checkKeyword schema path (nullOr areUniqueStrings) .notUniqueStrings "required"
  checkKeyword schema path (nullOr areStrings) .notStrings "enum"
  for keyword in ["title", "description", "format", "pattern", "$schema"] do
    checkKeyword schema path (fun x => (asString x).isSome) .notString keyword
  for keyword in ["minItems", "maxItems", "minLength", "maxLength", "minProperties",
      "maxProperties"] do
    checkKeyword schema path isCount .notCount keyword
  for keyword in ["minimum", "maximum"] do
    checkKeyword schema path isNumber .notNumber keyword

/-- A declared type is one of the types, or one of them and `null`. -/
def isSupportedType : Json.Tree F → Bool
  | .str name => name ∈ jsonSchemaTypes
  | .arr names =>
    names.length = 2 && (names.filterMap asString).contains (.ofString "null") &&
      (names.filterMap asString).countP (· ∈ jsonSchemaTypes) = 1
  | _ => false

/-- `_validate_type` -/
def validateType (value : Json.Tree F) (path : List Str) : Except IncompatibleToolSchema Unit :=
  if isSupportedType value then .ok () else .error ⟨path, .unsupportedType⟩

/-- `_infer_type` -/
def inferType (schema : Members F) : Option Str :=
  let has (keyword : String) := (schema.lookup (.ofString keyword)).isSome
  if has "properties" || has "additionalProperties" then some (.ofString "object")
  else if has "items" then some (.ofString "array")
  else if has "enum" then some (.ofString "string")
  else none

/-- A schema that neither declares a type nor alternatives gets the type it implies. -/
def withInferredType (path : List Str) (schema : Members F) :
    Except IncompatibleToolSchema (Members F) :=
  if (schema.lookup (.ofString "type")).isNone && (schema.lookup (.ofString "anyOf")).isNone then
    match inferType schema with
    | none => .error ⟨path, .noType⟩
    | some name => .ok (assign (.ofString "type") (.str name) schema)
  else .ok schema

/-- The first keyword that is not supported. -/
def checkSupported (schema : Members F) (path : List Str) : Except IncompatibleToolSchema Unit :=
  match schema.find? (·.1 ∉ nuaCommonKeywords) with
  | some (keyword, _) => .error ⟨path ++ [keyword], .unsupportedKeyword⟩
  | none => .ok ()

/-- The check of the type, if it is declared. -/
def validateDeclaredType (schema : Members F) (path : List Str) :
    Except IncompatibleToolSchema Unit :=
  match schema.lookup (.ofString "type") with
  | some value => validateType value (path ++ [.ofString "type"])
  | none => .ok ()

/-- What `_normalize_schema` does once there is no reference. -/
def normalizeKeywords
    (normalize : Json.Tree F → (path : List Str) → Except IncompatibleToolSchema (Members F))
    (path : List Str) (current : Members F) : Except IncompatibleToolSchema (Members F) := do
  let current ← normalizeSchemaMap normalize (.ofString "properties") path current
  let current ← normalizeSchemaValue normalize (.ofString "items") path current
  let current ← normalizeAdditionalProperties normalize path current
  let current ← normalizeSchemaList normalize (.ofString "anyOf") path current
  validateKeywordValues current path
  validateDeclaredType current path
  let current ← withInferredType path current
  .ok (pop (.ofString "definitions") (pop (.ofString "$defs") current))

/-- `_normalize_schema`, with the number of levels that the stack has left. -/
def normalizeSchema (root : Members F) : (levels : ℕ) → Json.Tree F → (path resolving : List Str) →
    Except IncompatibleToolSchema (Members F)
  | 0, _, _, _ => .error ⟨[], .tooDeep⟩
  | levels + 1, .obj schema, path, resolving => do
    let current := schema.filter (·.1 ∉ ignoredAnnotationKeywords)
    checkSupported current path
    let current ← inlineReference root (fun target resolving =>
      normalizeSchema root levels target path resolving) current path resolving
    normalizeKeywords (fun value path => normalizeSchema root levels value path resolving) path
      current
  | _ + 1, _, path, _ => .error ⟨path, .notObject⟩

/-- The schema of the input of a tool, normalized, with a bound on the levels below it. -/
def normalizeToolSchema (levels : ℕ) : Json.Tree F → Except IncompatibleToolSchema (Members F)
  | .obj [] =>
    .ok [(.ofString "type", .str (.ofString "object")), (.ofString "properties", .obj [])]
  | .obj schema => do
    let normalized ← normalizeSchema schema (levels + 1) (.obj schema) [] []
    match normalized.lookup (.ofString "type") with
    | some (.str name) =>
      if name = .ofString "object" then .ok normalized
      else .error ⟨[.ofString "type"], .notObjectType⟩
    | _ => .error ⟨[.ofString "type"], .notObjectType⟩
  | _ => .error ⟨[], .notObject⟩

end

end Hyperforge.Mcp
