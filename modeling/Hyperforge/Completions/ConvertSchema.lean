import Hyperforge.Library.Json.Ascii
import Hyperforge.Library.Json.Dict
import Mathlib.Data.List.Infix

/-!
# The schemas that providers are given

The JSON schema of the output that is asked for is converted to the format that a provider of
language models expects (`convertJsonSchema`): with a name or a title, with the
parameters apart or not, and with what the provider requires of additional properties, of
required properties and of nullable types.

Dictionaries are lists of members.
-/

namespace Hyperforge.Completions

open Json hiding Tree

abbrev Dict (F : Type) := List (Str × Json.Tree F)

inductive AdditionalProperties
  | defaultToFalse
  | unsupported
  | noop
  deriving DecidableEq

inductive Required
  | setIfNoDefault
  | force
  | noop
  deriving DecidableEq

inductive OutputFormat
  | flat
  | functionCall
  deriving DecidableEq

inductive Nullable
  | keyword
  | noop
  deriving DecidableEq

structure Options where
  additionalProperties : AdditionalProperties := .defaultToFalse
  required : Required := .setIfNoDefault
  outputFormat : OutputFormat := .functionCall
  unsupportedAttrs : List Str := []
  nullable : Nullable := .noop

/-- A `ParseJsonSchemaException`, or another exception. -/
inductive Error
  | parseJsonSchema (message : String)
  | unhandled
  deriving DecidableEq

def additionalPropertiesKey : Str := .ofString "additionalProperties"
def propertiesKey : Str := .ofString "properties"
def typeKey : Str := .ofString "type"
def parametersKey : Str := .ofString "parameters"
def requiredKey : Str := .ofString "required"
def nullableKey : Str := .ofString "nullable"
def nameKey : Str := .ofString "name"
def titleKey : Str := .ofString "title"
def descriptionKey : Str := .ofString "description"

variable {F : Type}

/-- The text is a certain one. -/
def isText (s : Str) : Json.Tree F → Bool
  | .str t => t = s
  | _ => false

/-- `k in x`: `none` where it raises a `TypeError`. -/
def contains (k : Str) : Json.Tree F → Option Bool
  | .obj ms => some (ms.lookup k).isSome
  | .arr items => some (items.any (isText k))
  | .str s => some (decide (k <:+: s))
  | _ => none

/-! ## Additional properties -/

/-- Additional properties are declared as an empty object. -/
def malformed (obj : Dict F) : Bool :=
  match obj.lookup additionalPropertiesKey with
  | some (.obj []) => true
  | _ => false

/-- The object is of the type of objects. -/
def isObjectType (obj : Dict F) : Bool :=
  match obj.lookup typeKey with
  | some x => isText (.ofString "object") x
  | none => false

/-- Whether additional properties are set: an empty object is, and then the object if it is of
    type `object`, or has properties and does not declare additional ones. -/
def closes (obj : Dict F) : Bool :=
  malformed obj || isObjectType obj ||
    (obj.lookup propertiesKey).isSome && (obj.lookup additionalPropertiesKey).isNone

mutual

def setAdditionalPropertiesFalse : Json.Tree F → Json.Tree F
  | .obj obj =>
    if closes obj then .obj (assign additionalPropertiesKey (.bool false) (setMembers obj))
    else .obj (setMembers obj)
  | x => x

/-- The members of an object after the recursion into definitions, properties, items, and the
    variants of `anyOf`, `oneOf` and `allOf`. -/
def setMembers : Dict F → Dict F
  | [] => []
  | (k, x) :: ms =>
    (k,
      if k ∈ ["$defs", "properties"].map Str.ofString then setValues x
      else if k = .ofString "items" then setAdditionalPropertiesFalse x
      else if k ∈ ["anyOf", "oneOf", "allOf"].map Str.ofString then setVariants x
      else x) :: setMembers ms

def setValues : Json.Tree F → Json.Tree F
  | .obj values => .obj (setEntries values)
  | x => x

def setEntries : Dict F → Dict F
  | [] => []
  | (k, x) :: ms => (k, setAdditionalPropertiesFalse x) :: setEntries ms

def setVariants : Json.Tree F → Json.Tree F
  | .arr variants => .arr (setItems variants)
  | x => x

def setItems : List (Json.Tree F) → List (Json.Tree F)
  | [] => []
  | x :: xs => setAdditionalPropertiesFalse x :: setItems xs

end

mutual

def removeAdditionalProperties : Json.Tree F → Json.Tree F
  | .obj obj => .obj (removeMembers obj)
  | .arr items => .arr (removeItems items)
  | x => x

def removeMembers : Dict F → Dict F
  | [] => []
  | (k, x) :: ms =>
    if k = additionalPropertiesKey then removeMembers ms
    else (k, removeAdditionalProperties x) :: removeMembers ms

def removeItems : List (Json.Tree F) → List (Json.Tree F)
  | [] => []
  | x :: xs => removeAdditionalProperties x :: removeItems xs

end

/-- What is done to the container of the parameters about additional properties, which depends
    on whether it declares them. -/
def convertAdditionalProperties (o : AdditionalProperties) (container : Json.Tree F) :
    Option (Json.Tree F) :=
  match o with
  | .defaultToFalse => (contains additionalPropertiesKey container).map fun declared =>
      if declared then container else setAdditionalPropertiesFalse container
  | .unsupported => (contains additionalPropertiesKey container).map fun declared =>
      if declared then removeAdditionalProperties container else container
  | .noop => some container

/-! ## Required properties -/

/-- `sorted`, by the numbers of the code points. -/
def sortNames (names : List Str) : List Str :=
  names.insertionSort fun s t => s.map CodePoint.toNat ≤ t.map CodePoint.toNat

/-- `container["required"] = sorted(…)`, with the properties that are selected. -/
def requireProperties (select : Dict F → Option (Dict F)) :
    Json.Tree F → Option (Json.Tree F)
  | .obj ms =>
    match ms.lookup propertiesKey with
    | some (.obj properties) => (select properties).map fun selected =>
        .obj (assign requiredKey (.arr ((sortNames (selected.map Prod.fst)).map .str)) ms)
    | _ => none
  | _ => none

/-- The properties without defaults. -/
def withoutDefault (properties : Dict F) : Option (Dict F) :=
  properties.filterM fun m => (contains (.ofString "default") m.2).map (!·)

def convertRequired (o : Required) (container : Json.Tree F) : Option (Json.Tree F) :=
  match o with
  | .setIfNoDefault => (contains requiredKey container).bind fun declared =>
      if declared then some container else requireProperties withoutDefault container
  | .force => requireProperties some container
  | .noop => some container

/-! ## Nullable types -/

/-- The type is a union of a type with `null`. -/
def hasNullableType (obj : Dict F) : Bool :=
  match obj.lookup typeKey with
  | some (.arr [x, y]) => isText (.ofString "null") x || isText (.ofString "null") y
  | _ => false

mutual

/-- `none` where the exception `StopIteration` is raised, for a union of `null` with `null`. -/
def convertNullableTypeArrays : Json.Tree F → Option (Json.Tree F)
  | .obj obj =>
    if hasNullableType obj then
      (convertMembers true obj).map fun obj => .obj (assign nullableKey (.bool true) obj)
    else (convertMembers false obj).map .obj
  | .arr items => (convertItems items).map .arr
  | x => some x

/-- The members of an object after the recursion into its values, in which a nullable type
    has been replaced, and a value that is to be replaced is not looked into. -/
def convertMembers (nullable : Bool) : Dict F → Option (Dict F)
  | [] => some []
  | (k, x) :: ms =>
    (if nullable && k = typeKey then convertUnion x
      else if nullable && k = nullableKey then some x
      else convertNullableTypeArrays x).bind fun x =>
    (convertMembers nullable ms).map ((k, x) :: ·)

def convertUnion : Json.Tree F → Option (Json.Tree F)
  | .arr [x, y] =>
    if !isText (.ofString "null") x then convertNullableTypeArrays x
    else if !isText (.ofString "null") y then convertNullableTypeArrays y
    else none
  | x => some x

def convertItems : List (Json.Tree F) → Option (List (Json.Tree F))
  | [] => some []
  | x :: xs =>
    (convertNullableTypeArrays x).bind fun x => (convertItems xs).map (x :: ·)

end

def convertNullable (o : Nullable) (container : Json.Tree F) : Option (Json.Tree F) :=
  match o with
  | .keyword => convertNullableTypeArrays container
  | .noop => some container

/-! ## Unsupported attributes -/

/-- A property without the attributes: `none` where it is not a dictionary. -/
def removeAttrs (attrs : List Str) (property : Str × Json.Tree F) :
    Option (Str × Json.Tree F) :=
  match property.2 with
  | .obj content => some (property.1, .obj (content.filter (·.1 ∉ attrs)))
  | _ => none

def removeUnsupportedAttrs (attrs : List Str) (container : Json.Tree F) :
    Option (Json.Tree F) :=
  if attrs = [] then some container else
  match container with
  | .obj ms =>
    match ms.lookup propertiesKey with
    | some (.obj properties) => (properties.mapM (removeAttrs attrs)).map fun properties =>
        .obj (assign propertiesKey (.obj properties) ms)
    | some .null | none => some (.obj ms)
    | some _ => none
  | _ => none

/-! ## The conversion -/

/-- What is done to the container of the parameters: `none` where an exception is raised. -/
def convertContainer (o : Options) (container : Json.Tree F) : Option (Json.Tree F) :=
  (convertAdditionalProperties o.additionalProperties container).bind fun container =>
  (convertRequired o.required container).bind fun container =>
  (convertNullable o.nullable container).bind fun container =>
  removeUnsupportedAttrs o.unsupportedAttrs container

/-- `schema.get(key) is not None` -/
def given (schema : Dict F) (key : Str) : Option (Json.Tree F) :=
  match schema.lookup key with
  | some .null | none => none
  | some x => some x

/-- `schema.setdefault("description", "")` -/
def setDefaultDescription (schema : Dict F) : Dict F :=
  if (schema.lookup descriptionKey).isSome then schema
  else assign descriptionKey (.str []) schema

/-- `schema.get("description") or ""`, where some floats are zero. -/
def descriptionOrEmpty (zero : F → Bool) (schema : Dict F) : Json.Tree F :=
  match schema.lookup descriptionKey with
  | none | some .null | some (.bool false) | some (.int 0) | some (.arr []) | some (.obj []) =>
    .str []
  | some (.float x) => if zero x then .str [] else .float x
  | some x => x

/-- `s.replace(" ", "_")` -/
def underscores (s : Str) : Str :=
  s.map fun c => if c = .scalar ' ' then .scalar '_' else c

/-- `schema["name"] = schema["name"].replace(" ", "_")` -/
def underscoreName (schema : Dict F) : Except Error (Dict F) :=
  match schema.lookup nameKey with
  | some (.str name) => .ok (assign nameKey (.str (underscores name)) schema)
  | _ => .error .unhandled

/-- The title becomes the name, unless there is a name. -/
def setName (schema : Dict F) : Except Error (Dict F) :=
  match schema.lookup nameKey, schema.lookup titleKey with
  | none, some title => underscoreName (pop titleKey (assign nameKey title schema))
  | _, _ => underscoreName schema

/-- The name becomes the title, unless there is a title. -/
def setTitle (schema : Dict F) : Except Error (Dict F) :=
  match schema.lookup titleKey, schema.lookup nameKey with
  | none, some _ => (underscoreName schema).map fun schema =>
      pop nameKey (assign titleKey ((schema.lookup nameKey).getD .null) schema)
  | _, _ => .ok schema

def missingContainer : Error :=
  .parseJsonSchema "Input schema must contain a 'properties' or 'parameters' field."

/-- The converted schema, and the container of its parameters. -/
def toFunctionCallSchema (zero : F → Bool) (schema : Dict F) :
    Except Error (Dict F × Json.Tree F) :=
  (setName schema).bind fun schema =>
  match given schema propertiesKey, given schema parametersKey with
  | some _, _ =>
    let parameters := .obj (schema.filter (·.1 ∉ [descriptionKey, nameKey]))
    .ok ([(nameKey, (schema.lookup nameKey).getD .null),
      (descriptionKey, descriptionOrEmpty zero schema), (parametersKey, parameters)], parameters)
  | none, some parameters => .ok (setDefaultDescription schema, parameters)
  | none, none => .error missingContainer

/-- `{"title": title, "description": description, **parameters}` -/
def withAnnotations (title description : Json.Tree F) (parameters : Dict F) : Dict F :=
  (titleKey, (parameters.lookup titleKey).getD title) ::
    (descriptionKey, (parameters.lookup descriptionKey).getD description) ::
    parameters.filter (·.1 ∉ [titleKey, descriptionKey])

def toFlatSchema (zero : F → Bool) (schema : Dict F) : Except Error (Dict F) :=
  (setTitle schema).bind fun schema =>
  match given schema propertiesKey, given schema parametersKey with
  | some _, _ => .ok (setDefaultDescription schema)
  | none, some parameters =>
    match contains propertiesKey parameters, parameters with
    | some false, _ =>
      .error (.parseJsonSchema "Schema must contain a 'properties' field inside 'parameters'")
    | some true, .obj parameters => .ok (withAnnotations
        ((schema.lookup titleKey).getD .null) (descriptionOrEmpty zero schema) parameters)
    | _, _ => .error .unhandled
  | none, none => .error missingContainer

/-- The container as converted, or the exception that says that it could not be. -/
def parseContainer (o : Options) (container : Json.Tree F) : Except Error (Json.Tree F) :=
  match convertContainer o container with
  | some container => .ok container
  | none => .error (.parseJsonSchema
      ("The provided JSON Schema could not be parsed. " ++
        "Please review your schema and ensure it is valid."))

def convertJsonSchema (zero : F → Bool) (o : Options) (schema : Dict F) :
    Except Error (Json.Tree F) :=
  if (schema.lookup nameKey).isNone && (schema.lookup titleKey).isNone then
    .error (.parseJsonSchema
      ("Input schema must contain a 'name' or 'title' field. " ++
        "Please add it to your schema definition."))
  else
    match o.outputFormat with
    | .functionCall =>
      (toFunctionCallSchema zero schema).bind fun (converted, container) =>
      (parseContainer o container).map fun container =>
        .obj (assign parametersKey container converted)
    | .flat =>
      (toFlatSchema zero schema).bind fun converted => parseContainer o (.obj converted)

end Hyperforge.Completions
