import Hyperforge.Library.Json
import Mathlib.Data.Nat.Size

/-!
# The wire format of values

The values that untrusted code and its controller exchange are written as JSON, of
bounded size and depth (`encodeProtocolValue`), and read back (`decodeProtocolValue`).
Models of the protocol are written as objects with a marker, the member
`__model__`; a dictionary that has such a key is escaped, as an object with the marker
`__hyperforge_plain_dict__`. The models within the fields of a model have no
marker: they are restored by the validation of the model.

The encoder is a generator of chunks, whose consumer refuses a chunk when the bound on the
size is exceeded; here, its state is the bytes written so far. As values are trees, its
check for circular references is left out, and so are the wrappers of values that only
requests to run code use.
-/

namespace Hyperforge.Codemode.Protocol

open Json hiding Tree

def maxProtocolBytes : ℕ := 16 * 1024 * 1024
def maxProtocolDepth : ℕ := 256
def jsonStringChunkChars : ℕ := 4096
def modelKey : Str := .ofString "__model__"
def plainDictModel : Str := .ofString "__hyperforge_plain_dict__"

/-- The limit on the digits of the integers that are converted from or to strings. -/
def maxDigits : ℕ := 4300

/-! ## Values -/

/-- The classes of models: those with a marker, those of their fields, and others. -/
inductive ModelClass
  | context
  | remiResponse
  | workerError
  | answerRelevance
  | chunk
  | consumption
  | functionDefinition
  | image
  | jsonObject
  | prompt
  | tokensDetail
  | other (name : String)
  deriving DecidableEq

namespace ModelClass

def name : ModelClass → String
  | context => "Context"
  | remiResponse => "RemiResponse"
  | workerError => "WorkerError"
  | answerRelevance => "AnswerRelevance"
  | chunk => "Chunk"
  | consumption => "Consumption"
  | functionDefinition => "FunctionDefinition"
  | image => "Image"
  | jsonObject => "JSONObject"
  | prompt => "Prompt"
  | tokensDetail => "TokensDetail"
  | other name => name

/-- `_MARKED_PROTOCOL_MODELS` -/
def marked : List ModelClass := [context, remiResponse, workerError]

/-- `_UNMARKED_PROTOCOL_MODELS` -/
def unmarked : List ModelClass :=
  [answerRelevance, chunk, consumption, functionDefinition, image, jsonObject, prompt, tokensDetail]

/-- `WorkerModels`: the marked models by their name. -/
def workerModel (name : Str) : Option ModelClass := marked.find? (.ofString ·.name = name)

end ModelClass

/-- The keys of dictionaries; `other` are those refused. -/
inductive Key (F : Type)
  | str (s : Str)
  | none
  | bool (b : Bool)
  | int (i : ℤ)
  | float (x : F)
  | other (typeName : String)

/-- The values, with the items that a model is written from. The encoder wraps a
    dictionary that it has escaped (`rawPlainDict`). A value of any other type is refused. -/
inductive Value (F : Type)
  | none
  | bool (b : Bool)
  | int (i : ℤ)
  | float (x : F)
  | str (s : Str)
  | list (items : List (Value F))
  | tuple (items : List (Value F))
  | dict (items : List (Key F × Value F))
  | restrictedPythonTask (function agent : Str) (args : List (Value F))
    (keywordArgs : List (Key F × Value F))
  | model (cls : ModelClass) (items : List (Str × Value F))
  | rawPlainDict (items : List (Key F × Value F))
  | object (typeName : String)

/-- An exception of the codec. -/
inductive PyError
  | typeError (message : String)
  | valueError (message : String)
  deriving DecidableEq

/-- What the codec uses of the classes of models: whether they have serializers of
    their own, the items of their instances, whose names are distinct identifiers
    that are no marker, and their validation. -/
structure Pydantic (F : Type) where
  hasSerializers : ModelClass → Bool
  IsInstance : ModelClass → List (Str × Value F) → Prop
  validate : ModelClass → List (Str × Value F) → Except PyError (Value F)
  nodup {cls : ModelClass} {items : List (Str × Value F)} :
    IsInstance cls items → (items.map Prod.fst).Nodup
  noMarker {cls : ModelClass} {items : List (Str × Value F)} :
    IsInstance cls items → modelKey ∉ items.map Prod.fst

/-! ## The encoder -/

/-- The exceptions raised while chunks are generated. -/
inductive EncodeError
  | tooLarge
  | strictWorkerModelValue
  | reservedWorkerKey
  | notSerializable
  deriving DecidableEq

/-- A generator, from the bytes written before to those after. -/
abbrev Encoder := ByteArray → Except EncodeError ByteArray

namespace Encoder

def fail (e : EncodeError) : Encoder := fun _ => .error e

def done : Encoder := .ok

/-- One generator after another. -/
def seq (x y : Encoder) : Encoder := fun encoded => x encoded >>= y

instance : Append Encoder := ⟨seq⟩

end Encoder

section Encode

open Encoder

variable {F : Type} (φ : FloatFormat F) (π : Pydantic F) (maxBytes : ℕ) (strictWorkerValue : Bool)

/-- A chunk, if it fits. -/
def chunk (bytes : ByteArray) : Encoder := fun encoded =>
  if encoded.size + bytes.size > maxBytes then .error .tooLarge else .ok (encoded ++ bytes)

def ascii (s : String) : Encoder := chunk maxBytes s.toByteArray

/-- A text, which cannot be written if it has surrogates. -/
def textBytes (s : Str) : Encoder :=
  match encodeUtf8 s with
  | some bytes => chunk maxBytes bytes
  | none => fail .notSerializable

/-- The parts of `jsonStringChunkChars` characters that a string is written in. -/
def pieces (s : Str) : List Str :=
  (List.range ((s.length + jsonStringChunkChars - 1) / jsonStringChunkChars)).map fun i =>
    (s.drop (i * jsonStringChunkChars)).take jsonStringChunkChars

/-- A loop over items, with their index. -/
def enumerate {α : Type} (body : ℕ → α → Encoder) (index : ℕ) : List α → Encoder
  | [] => done
  | x :: xs => body index x ++ enumerate body (index + 1) xs

def iterJsonStringBytes (s : Str) : Encoder :=
  ascii maxBytes "\"" ++ enumerate (fun _ piece => textBytes maxBytes (dumps piece)) 0 (pieces s) ++
    ascii maxBytes "\""

/-- The text of an integer, if it is not too long. -/
def intBytes (i : ℤ) : Encoder :=
  if (Nat.toDigits 10 i.natAbs).length > maxDigits then fail .notSerializable
  else textBytes maxBytes (chars (intText i))

/-- `_json_key` -/
def jsonKey : Key F → Except EncodeError Str
  | .str s => .ok s
  | .none => .ok (.ofString "null")
  | .bool true => .ok (.ofString "true")
  | .bool false => .ok (.ofString "false")
  | .int i =>
    if i.natAbs.size > maxBytes * 4 then .error .tooLarge
    else if (Nat.toDigits 10 i.natAbs).length > maxDigits then .error .notSerializable
    else .ok (chars (intText i))
  | .float x => if φ.isFinite x then .ok (chars (φ.repr x)) else .error .notSerializable
  | .other _ => .error .notSerializable

def separator (index : ℕ) : Encoder := if index = 0 then done else ascii maxBytes ","

/-- A member of an object. -/
def member (index : ℕ) (key : Str) (value : Encoder) : Encoder :=
  separator maxBytes index ++ iterJsonStringBytes maxBytes key ++ ascii maxBytes ":" ++ value

/-- A member of a dictionary, whose key need not be a string. -/
def dictMember (index : ℕ) (key : Key F) (value : Encoder) : Encoder :=
  separator maxBytes index ++
    (match jsonKey φ maxBytes key with
      | .ok key => iterJsonStringBytes maxBytes key
      | .error e => fail e) ++
    ascii maxBytes ":" ++ value

/-- A dictionary has the key `__model__`. -/
def hasModelKey {α : Type} (items : List (Key F × α)) : Bool :=
  items.any fun (key, _) => match key with
    | .str s => s = modelKey
    | _ => false

/-- `_iter_json_bytes`, with the number of levels left up to `maxProtocolDepth`. -/
def iterJsonBytes : (levels : ℕ) → (includeModelMarkers : Bool) → Value F → Encoder
  | 0, _, _ => fail .notSerializable
  | levels + 1, includeModelMarkers, value =>
    match value with
    | .restrictedPythonTask function agent args keywordArgs =>
      if strictWorkerValue then fail .strictWorkerModelValue
      else
        let item := iterJsonBytes levels true
        ascii maxBytes "\x7b" ++
          member maxBytes 0 modelKey (item (.str (.ofString "RestrictedPythonTask"))) ++
          member maxBytes 1 (.ofString "function") (item (.str function)) ++
          member maxBytes 2 (.ofString "agent") (item (.str agent)) ++
          member maxBytes 3 (.ofString "args") (item (.tuple args)) ++
          member maxBytes 4 (.ofString "keyword_args") (item (.dict keywordArgs)) ++
          ascii maxBytes "\x7d"
    | .model cls items =>
      if strictWorkerValue then fail .strictWorkerModelValue
      else if cls ∉ (if includeModelMarkers then ModelClass.marked else ModelClass.unmarked) then
        fail .notSerializable
      else
        let item := iterJsonBytes levels false
        ascii maxBytes "\x7b" ++
          (if π.hasSerializers cls then fail .notSerializable else done) ++
          enumerate (fun index field => member maxBytes index field.1 (item field.2)) 0 items ++
          (if includeModelMarkers then
            member maxBytes items.length modelKey (item (.str (.ofString cls.name))) else done) ++
          ascii maxBytes "\x7d"
    | .none => ascii maxBytes "null"
    | .bool true => ascii maxBytes "true"
    | .bool false => ascii maxBytes "false"
    | .str s => iterJsonStringBytes maxBytes s
    | .int i => if i.natAbs.size > maxBytes * 4 then fail .tooLarge else intBytes maxBytes i
    | .float x =>
      if φ.isFinite x then textBytes maxBytes (chars (φ.repr x)) else fail .notSerializable
    | .list items | .tuple items =>
      ascii maxBytes "[" ++
        enumerate (fun index value =>
          separator maxBytes index ++ iterJsonBytes levels includeModelMarkers value) 0 items ++
        ascii maxBytes "]"
    | .rawPlainDict items =>
      ascii maxBytes "\x7b" ++
        enumerate (fun index item => dictMember φ maxBytes index item.1
          (iterJsonBytes levels includeModelMarkers item.2)) 0 items ++
        ascii maxBytes "\x7d"
    | .dict items =>
      if hasModelKey items then
        if strictWorkerValue then fail .reservedWorkerKey
        else
          let item := iterJsonBytes levels includeModelMarkers
          ascii maxBytes "\x7b" ++
            member maxBytes 0 modelKey (item (.str plainDictModel)) ++
            member maxBytes 1 (.ofString "value") (item (.rawPlainDict items)) ++
            ascii maxBytes "\x7d"
      else
        ascii maxBytes "\x7b" ++
          enumerate (fun index item => dictMember φ maxBytes index item.1
            (iterJsonBytes levels includeModelMarkers item.2)) 0 items ++
          ascii maxBytes "\x7d"
    | .object _ => fail .notSerializable

def encodeProtocolValue (value : Value F) (label : String) : Except PyError ByteArray :=
  match iterJsonBytes φ π maxBytes strictWorkerValue (maxProtocolDepth + 1) true value .empty with
  | .ok encoded => .ok encoded
  | .error .tooLarge => .error (.valueError (label ++ " exceeds maximum size"))
  | .error .strictWorkerModelValue =>
    .error (.typeError (label ++ " must not contain Pydantic model values"))
  | .error .reservedWorkerKey =>
    .error (.valueError (label ++ " cannot contain the reserved '__model__' key"))
  | .error .notSerializable => .error (.valueError (label ++ " is not serializable"))

end Encode

/-! ## The decoder -/

section Decode

variable {F : Type} (φ : FloatFormat F) (π : Pydantic F) (maxBytes : ℕ)

/-- `_validate_json_depth`, with the number of levels left, and the check of floats. -/
def validateJsonDepth : (levels : ℕ) → Json.Tree F → Bool
  | 0, _ => false
  | levels + 1, .obj members => members.all fun p => validateJsonDepth levels p.2
  | levels + 1, .arr items => items.all (validateJsonDepth levels)
  | _ + 1, .float x => φ.isFinite x
  | _ + 1, _ => true

def decodeJsonValue (encoded : ByteArray) (label : String) : Except PyError (Json.Tree F) :=
  if encoded.size > maxBytes then .error (.valueError (label ++ " exceeds maximum size"))
  else match decodeUtf8 encoded >>= loads φ maxDigits with
    | some value =>
      if validateJsonDepth φ (maxProtocolDepth + 1) value then .ok value
      else .error (.valueError (label ++ " is not valid JSON"))
    | none => .error (.valueError (label ++ " is not valid JSON"))

/-- The member of an object. -/
def get {α : Type} (members : List (Str × α)) (key : Str) : Option α :=
  (members.find? (·.1 = key)).map Prod.snd

/-- A loop over members, each with a value computed. -/
def mapMembers {α β : Type} (f : α → Except PyError β) :
    List (Str × α) → Except PyError (List (Str × β))
  | [] => .ok []
  | (key, x) :: members => do
    let y ← f x
    let rest ← mapMembers f members
    .ok ((key, y) :: rest)

def mapItems {α β : Type} (f : α → Except PyError β) : List α → Except PyError (List β)
  | [] => .ok []
  | x :: xs => do
    let y ← f x
    let ys ← mapItems f xs
    .ok (y :: ys)

/-- A dictionary with keys that are strings. -/
def strDict (members : List (Str × Value F)) : Value F :=
  .dict (members.map fun (key, x) => (.str key, x))

/-- A task, whose arguments are decoded, and whose other members have to be strings. -/
def restrictedPythonTask (function agent : Option (Json.Tree F)) (args keywordArgs : Value F) :
    Except PyError (Value F) :=
  match args, keywordArgs with
  | .list args, .dict keywordArgs | .tuple args, .dict keywordArgs =>
    match function, agent with
    | some (.str function), some (.str agent) =>
      .ok (.restrictedPythonTask function agent args keywordArgs)
    | _, _ => .error (.valueError "Invalid RestrictedPythonTask fields")
  | _, _ => .error (.valueError "Invalid RestrictedPythonTask payload")

/-- `deserialize`, with the number of levels left up to `maxProtocolDepth`. -/
def deserialize : (levels : ℕ) → Json.Tree F → Except PyError (Value F)
  | 0, _ => .error (.valueError "Protocol value is too deeply nested")
  | levels + 1, msg =>
    let item := deserialize levels
    match msg with
    | .obj members =>
      match get members modelKey with
      | some (.str modelName) =>
        if modelName = plainDictModel then
          match members.length, get members (.ofString "value") with
          | 2, some (.obj value) => strDict <$> mapMembers item value
          | _, _ => .error (.valueError "Invalid escaped protocol dictionary")
        else if modelName = .ofString "RestrictedPythonTask" then do
          let args ← item ((get members (.ofString "args")).getD .null)
          let keywordArgs ← item ((get members (.ofString "keyword_args")).getD .null)
          restrictedPythonTask (get members (.ofString "function"))
            (get members (.ofString "agent")) args keywordArgs
        else match ModelClass.workerModel modelName with
          | some cls => do
            let payload ← mapMembers item (members.filter (·.1 ≠ modelKey))
            π.validate cls payload
          | none => strDict <$> mapMembers item members
      | some _ => .error (.valueError "Invalid protocol model marker")
      | none => strDict <$> mapMembers item members
    | .arr items => .list <$> mapItems item items
    | .null => .ok .none
    | .bool b => .ok (.bool b)
    | .int i => .ok (.int i)
    | .float x => .ok (.float x)
    | .str s => .ok (.str s)

def decodeProtocolValue (encoded : ByteArray) (label : String) : Except PyError (Value F) := do
  let value ← decodeJsonValue φ maxBytes encoded label
  match deserialize π (maxProtocolDepth + 1) value with
  | .ok value => .ok value
  | .error _ => .error (.valueError (label ++ " is invalid"))

end Decode

end Hyperforge.Codemode.Protocol
