import Hyperforge.Codemode.Plain

/-!
# The messages of the sandbox

The requests to run code (`WorkerExecutionRequest`) and the other messages that the sandbox and its
controller exchange (`SandboxMessage`): how they are streamed (`encodeSandboxMessage`), how they are
built as plain dictionaries (`SandboxMessage.serialize`), and how they are read (`parse`).

A request is streamed without markers, but for its variables, in which values keep theirs. What
looks like a marker is escaped everywhere, while `parse` only reads the variables as values of the
protocol.
-/

namespace Hyperforge.Codemode.Protocol

open Json hiding Tree

/-- The limit on the packets of a sandbox. -/
def maxPacketBytes : ℕ := maxProtocolBytes

/-! ## Requests -/

/-- `FunctionDefinition`, whose parameters are an object of JSON. -/
structure FunctionDefinition (F : Type) where
  name : Str
  description : Str
  parameters : List (Str × Json.Tree F)
  method : Option Str
  inputSchema : Option (List (Str × Json.Tree F))
  lazyLoad : Bool

/-- A request to run code, with the functions that it may call, by their agents. -/
structure WorkerExecutionRequest (F : Type) where
  code : Str
  question : Str
  localVars : List (Str × Value F)
  globalVars : List (Str × Value F)
  functionNames : List (Str × List (Str × FunctionDefinition F))
  maxRuntimeSeconds : Option F
  maxMemoryBytes : Option ℤ
  redactErrors : Bool

/-- A message. The token of a request to run code and the text of an error are read as they are. -/
inductive SandboxMessage (F : Type)
  | run (run : WorkerExecutionRequest F) (token : Json.Tree F)
  | request (function agent : Str) (args : List (Value F)) (keywordArgs : List (Key F × Value F))
  | response (result : Value F)
  | done
  | error (text : Json.Tree F)

section Items

variable {F : Type}

mutual

/-- What the reader of JSON returns, as a value. -/
def Value.ofTree : Json.Tree F → Value F
  | .null => .none
  | .bool b => .bool b
  | .int i => .int i
  | .float x => .float x
  | .str s => .str s
  | .arr items => .list (ofItems items)
  | .obj members => .dict (ofMembers members)

def Value.ofItems : List (Json.Tree F) → List (Value F)
  | [] => []
  | x :: xs => ofTree x :: ofItems xs

def Value.ofMembers : List (Str × Json.Tree F) → List (Key F × Value F)
  | [] => []
  | (k, x) :: ms => (.str k, ofTree x) :: ofMembers ms

end

def Value.ofOption {α : Type} (f : α → Value F) : Option α → Value F
  | .none => .none
  | some x => f x

namespace FunctionDefinition

/-- The items that a function definition is written from. -/
def items (d : FunctionDefinition F) : List (Str × Value F) :=
  [(.ofString "name", .str d.name), (.ofString "description", .str d.description),
    (.ofString "parameters", .ofTree (.obj d.parameters)),
    (.ofString "method", .ofOption .str d.method),
    (.ofString "input_schema", .ofOption (fun s => .ofTree (.obj s)) d.inputSchema),
    (.ofString "lazy_load", .bool d.lazyLoad)]

def value (d : FunctionDefinition F) : Value F := .model .functionDefinition d.items

end FunctionDefinition

/-- The functions of an agent. -/
def agentValue (functions : List (Str × FunctionDefinition F)) : Value F :=
  strDict (functions.map fun d => (d.1, d.2.value))

def functionNamesValue (agents : List (Str × List (Str × FunctionDefinition F))) : Value F :=
  strDict (agents.map fun a => (a.1, agentValue a.2))

/-- `_worker_request_items`; the variables are wrapped in `_MarkedProtocolValue`. -/
def WorkerExecutionRequest.items (r : WorkerExecutionRequest F) : List (Str × Bool × Value F) :=
  [(.ofString "code", false, .str r.code), (.ofString "question", false, .str r.question),
    (.ofString "local_vars", true, strDict r.localVars),
    (.ofString "global_vars", true, strDict r.globalVars),
    (.ofString "function_names", false, functionNamesValue r.functionNames),
    (.ofString "max_runtime_seconds", false, .ofOption .float r.maxRuntimeSeconds),
    (.ofString "max_memory_bytes", false, .ofOption .int r.maxMemoryBytes),
    (.ofString "redact_errors", false, .bool r.redactErrors)]

end Items

/-! ## Streams of messages -/

section Encode

variable {F : Type} (φ : FloatFormat F) (π : Pydantic F) (maxBytes : ℕ)

/-- A request, wrapped in `_PlainModel`, is written without markers, but for its variables. -/
def iterRequestBytes : (levels : ℕ) → WorkerExecutionRequest F → Encoder
  | 0, _ => .fail .notSerializable
  | levels + 1, r =>
    ascii maxBytes "\x7b" ++
      enumerate (fun index item => member maxBytes index item.1
        (iterJsonBytes φ π maxBytes false levels item.2.1 item.2.2)) 0 r.items ++
      ascii maxBytes "\x7d"

/-- The chunks of a message, which is a dictionary. -/
def SandboxMessage.iterBytes : SandboxMessage F → Encoder
  | .run r token =>
    let item := iterJsonBytes φ π maxBytes false maxProtocolDepth true
    ascii maxBytes "\x7b" ++
      member maxBytes 0 (.ofString "_") (item (.str (.ofString "run"))) ++
      member maxBytes 1 (.ofString "run") (iterRequestBytes φ π maxBytes maxProtocolDepth r) ++
      member maxBytes 2 (.ofString "token") (item (.ofTree token)) ++
      ascii maxBytes "\x7d"
  | .request function agent args keywordArgs => value [(.ofString "_", .str (.ofString "request")),
      (.ofString "task", .restrictedPythonTask function agent args keywordArgs)]
  | .response result => value [(.ofString "_", .str (.ofString "response")),
      (.ofString "result", result)]
  | .done => value [(.ofString "_", .str (.ofString "done"))]
  | .error text => value [(.ofString "_", .str (.ofString "error")),
      (.ofString "error", .ofTree text)]
where
  value (members : List (Str × Value F)) : Encoder :=
    iterJsonBytes φ π maxBytes false (maxProtocolDepth + 1) true (strDict members)

def encodeSandboxMessage (message : SandboxMessage F) (label : String) :
    Except PyError ByteArray :=
  match message.iterBytes φ π maxBytes .empty with
  | .ok encoded => .ok encoded
  | .error .tooLarge => .error (.valueError (label ++ " exceeds maximum size"))
  | .error .strictWorkerModelValue =>
    .error (.typeError (label ++ " must not contain Pydantic model values"))
  | .error .reservedWorkerKey =>
    .error (.valueError (label ++ " cannot contain the reserved '__model__' key"))
  | .error .notSerializable => .error (.valueError (label ++ " is not serializable"))

end Encode

/-! ## Plain messages -/

section Serialize

variable {F : Type}

/-- `model_dump` of a request. -/
def WorkerExecutionRequest.modelDump (r : WorkerExecutionRequest F) : List (Str × Value F) :=
  r.items.map fun item => (item.1, item.2.2.modelDump)

/-- A message as a plain value. The variables of a request are serialized, not dumped. -/
def SandboxMessage.serialize (calls : ℕ) : SandboxMessage F → Except SerializeError (Value F)
  | .run r token => do
    let localVars ← Protocol.serialize calls (strDict r.localVars)
    let globalVars ← Protocol.serialize calls (strDict r.globalVars)
    let run := setItem r.modelDump (.ofString "local_vars") localVars
    let run := setItem run (.ofString "global_vars") globalVars
    .ok (strDict [(.ofString "_", .str (.ofString "run")), (.ofString "run", strDict run),
      (.ofString "token", .ofTree token)])
  | .request function agent args keywordArgs => do
    let task ← Protocol.serialize calls (.restrictedPythonTask function agent args keywordArgs)
    .ok (strDict [(.ofString "_", .str (.ofString "request")), (.ofString "task", task)])
  | .response result => do
    let result ← Protocol.serialize calls result
    .ok (strDict [(.ofString "_", .str (.ofString "response")), (.ofString "result", result)])
  | .done => .ok (strDict [(.ofString "_", .str (.ofString "done"))])
  | .error text => .ok (strDict [(.ofString "_", .str (.ofString "error")),
      (.ofString "error", .ofTree text)])

end Serialize

/-! ## Validation -/

/-- The conversions of scalars by validation, which leaves those of the type of a field alone, and
    the sign of floats. -/
structure Conversions (F : Type) where
  bool : Json.Tree F → Option Bool
  int : Json.Tree F → Option ℤ
  float : Json.Tree F → Option F
  positive : F → Bool
  bool_bool (b : Bool) : bool (.bool b) = some b
  int_int (i : ℤ) : int (.int i) = some i
  float_float (x : F) : float (.float x) = some x

section Validate

variable {F : Type}

def validateStr : Json.Tree F → Option Str
  | .str s => some s
  | _ => none

def validateDict : Json.Tree F → Option (List (Str × Json.Tree F))
  | .obj members => some members
  | _ => none

/-- A field that may be none. -/
def nullable {α : Type} (validate : Json.Tree F → Option α) : Json.Tree F → Option (Option α)
  | .null => some none
  | x => some <$> validate x

/-- The value of a field, which has to satisfy a constraint unless it is none. -/
def constrained {α : Type} (constraint : α → Bool) (x : Option α) : Option (Option α) :=
  if x.all constraint then some x else none

/-- A field that is required. -/
def required {α : Type} (members : List (Str × Json.Tree F)) (name : String)
    (validate : Json.Tree F → Option α) : Option α :=
  (get members (.ofString name)).bind validate

def withDefault {α : Type} (members : List (Str × Json.Tree F)) (name : String)
    (validate : Json.Tree F → Option α) (default : α) : Option α :=
  match get members (.ofString name) with
  | none => some default
  | some x => validate x

/-- A dictionary, with the values of a type. -/
def validateValues {α β : Type} (validate : α → Option β) :
    List (Str × α) → Option (List (Str × β))
  | [] => some []
  | (k, x) :: ms => do
    let y ← validate x
    let rest ← validateValues validate ms
    some ((k, y) :: rest)

variable (c : Conversions F)

def FunctionDefinition.validate (tree : Json.Tree F) : Option (FunctionDefinition F) := do
  let members ← validateDict tree
  let name ← required members "name" validateStr
  let description ← required members "description" validateStr
  let parameters ← required members "parameters" validateDict
  let method ← withDefault members "method" (nullable validateStr) none
  let inputSchema ← withDefault members "input_schema" (nullable validateDict) none
  let lazyLoad ← withDefault members "lazy_load" c.bool false
  some ⟨name, description, parameters, method, inputSchema, lazyLoad⟩

def validateAgent (tree : Json.Tree F) : Option (List (Str × FunctionDefinition F)) :=
  (validateDict tree).bind (validateValues (FunctionDefinition.validate c))

def validateFunctionNames (tree : Json.Tree F) :
    Option (List (Str × List (Str × FunctionDefinition F))) :=
  (validateDict tree).bind (validateValues (validateAgent c))

/-- The keys of the variables have to be strings. -/
def validateKeys : List (Key F × Value F) → Option (List (Str × Value F))
  | [] => some []
  | (.str k, x) :: ps => ((k, x) :: ·) <$> validateKeys ps
  | _ :: _ => none

/-- `model_validate` of a request, with the variables that its members have been given. -/
def WorkerExecutionRequest.validate (φ : FloatFormat F) (run : List (Str × Json.Tree F))
    (localVars globalVars : List (Key F × Value F)) : Option (WorkerExecutionRequest F) := do
  let code ← required run "code" validateStr
  let question ← withDefault run "question" validateStr []
  let localVars ← validateKeys localVars
  let globalVars ← validateKeys globalVars
  let functionNames ← required run "function_names" (validateFunctionNames c)
  let maxRuntimeSeconds ← withDefault run "max_runtime_seconds" (nullable c.float) none
  let maxRuntimeSeconds ←
    constrained (fun x => φ.isFinite x && c.positive x) maxRuntimeSeconds
  let maxMemoryBytes ← withDefault run "max_memory_bytes" (nullable c.int) none
  let maxMemoryBytes ← constrained (fun n : ℤ => 0 < n) maxMemoryBytes
  let redactErrors ← withDefault run "redact_errors" c.bool false
  some ⟨code, question, localVars, globalVars, functionNames, maxRuntimeSeconds, maxMemoryBytes,
    redactErrors⟩

end Validate

/-! ## Reading messages -/

/-- The exceptions of `parse`. -/
inductive MessageError
  | keyError (key : String)
  | invalid (error : PyError)
  | validationError
  deriving DecidableEq

section Parse

variable {F : Type} (φ : FloatFormat F) (π : Pydantic F) (c : Conversions F)

/-- A member that has to be there. -/
def index (data : List (Str × Json.Tree F)) (key : String) :
    Except MessageError (Json.Tree F) :=
  match get data (.ofString key) with
  | some x => .ok x
  | none => .error (.keyError key)

def deserializeMember (x : Json.Tree F) : Except MessageError (Value F) :=
  match deserialize π (maxProtocolDepth + 1) x with
  | .ok value => .ok value
  | .error e => .error (.invalid e)

/-- The variables of a request, of a kind. -/
def runVariables (run : List (Str × Json.Tree F)) (name : String) :
    Except MessageError (List (Key F × Value F)) := do
  match ← deserializeMember π ((get run (.ofString name)).getD .null) with
  | .dict items => .ok items
  | _ => .error (.invalid (.valueError ("Invalid run request " ++ name)))

/-- `parse` of a request to run code. Of what `dict` takes, only objects are considered. -/
def parseRun (data : List (Str × Json.Tree F)) : Except MessageError (SandboxMessage F) := do
  match ← index data "run" with
  | .obj run =>
    let localVars ← runVariables π run "local_vars"
    let globalVars ← runVariables π run "global_vars"
    match WorkerExecutionRequest.validate c φ run localVars globalVars with
    | some r => .ok (.run r ((get data (.ofString "token")).getD .null))
    | none => .error .validationError
  | _ => .error (.invalid (.typeError "not a dictionary"))

def parseRequest (data : List (Str × Json.Tree F)) : Except MessageError (SandboxMessage F) := do
  match ← deserializeMember π (← index data "task") with
  | .restrictedPythonTask function agent args keywordArgs =>
    .ok (.request function agent args keywordArgs)
  | _ => .error (.invalid (.valueError "Invalid sandbox request task"))

/-- `SandboxMessage.parse` -/
def parse (data : List (Str × Json.Tree F)) : Except MessageError (SandboxMessage F) := do
  match ← index data "_" with
  | .str kind =>
    if kind = .ofString "run" then parseRun φ π c data
    else if kind = .ofString "request" then parseRequest π data
    else if kind = .ofString "response" then do
      let result ← deserializeMember π (← index data "result")
      .ok (.response result)
    else if kind = .ofString "done" then .ok .done
    else if kind = .ofString "error" then .error <$> index data "error"
    else .error (.invalid (.valueError "Invalid message type"))
  | _ => .error (.invalid (.valueError "Invalid message type"))

/-- A message, read from what has been decoded of JSON. -/
def parseJson : Json.Tree F → Except MessageError (SandboxMessage F)
  | .obj data => parse φ π c data
  | _ => .error (.invalid (.valueError "Invalid sandbox run request"))

/-- `_canonicalize_run_request` -/
def canonicalizeRunRequest (request : WorkerExecutionRequest F) :
    Except MessageError (WorkerExecutionRequest F) := do
  let label := "Sandbox run request"
  let encoded ← (encodeSandboxMessage φ π maxPacketBytes (.run request .null) label).mapError
    .invalid
  let value ← (decodeJsonValue φ maxPacketBytes encoded label).mapError .invalid
  match ← parseJson φ π c value with
  | .run request _ => .ok request
  | _ => .error (.invalid (.valueError "Invalid sandbox run request"))

end Parse

end Hyperforge.Codemode.Protocol
