import Hyperforge.Library.Redis.Lasting
import Hyperforge.Library.Base64
import Hyperforge.Library.Json.Ascii
import Mathlib.Data.Char
import Mathlib.Data.List.DropRight
import Mathlib.Data.List.Lex

/-!
# Stores of tasks

The stores of the A2A server in Redis. One keeps what is pending for a task, and which instance owns
its execution (`RedisA2ATaskStore`); the other the tasks of each owner, with an index by time
(`RedisA2ASDKTaskStore`). Strings are those with an encoding in UTF-8. Keys do not expire.

What is sent by Protobuf is given by its functions (`Protobuf`), as are page tokens (`PageTokens`)
and how Redis decodes JSON.
-/

namespace Hyperforge.A2a

open Json hiding Tree
open Redis.Lasting

abbrev Text := List Char

def text (s : String) : Text := s.toList

/-! ## Pending feedback and owners -/

structure PendingTaskRecord where
  taskId : Text
  contextId : Text
  feedbackId : Text
  requestId : Text
  ownerInstanceId : Text := []
  deriving DecidableEq

section Record

variable {F : Type}

def PendingTaskRecord.asdict (r : PendingTaskRecord) : Json.Tree F :=
  .obj [(.ofString "task_id", .str (chars r.taskId)),
    (.ofString "context_id", .str (chars r.contextId)),
    (.ofString "feedback_id", .str (chars r.feedbackId)),
    (.ofString "request_id", .str (chars r.requestId)),
    (.ofString "owner_instance_id", .str (chars r.ownerInstanceId))]

def PendingTaskRecord.toJson (φ : FloatFormat F) (r : PendingTaskRecord) : Str :=
  r.asdict.write φ ascii

/-- The characters of a string, if it has no surrogates. -/
def scalars (s : Str) : Option Text :=
  s.mapM fun
    | .scalar c => some c
    | .surrogate _ => none

def textOf : Option (Json.Tree F) → Option Text
  | some (.str s) => scalars s
  | _ => none

/-- A record of the members as arguments, if they are strings called as its fields. -/
def PendingTaskRecord.ofMembers (ms : List (Str × Json.Tree F)) : Option PendingTaskRecord := do
  let fields := ["task_id", "context_id", "feedback_id", "request_id", "owner_instance_id"]
  guard (∀ m ∈ ms, m.1 ∈ fields.map Str.ofString)
  let taskId ← textOf (ms.lookup (.ofString "task_id"))
  let contextId ← textOf (ms.lookup (.ofString "context_id"))
  let feedbackId ← textOf (ms.lookup (.ofString "feedback_id"))
  let requestId ← textOf (ms.lookup (.ofString "request_id"))
  let ownerInstanceId ← textOf (ms.lookup (.ofString "owner_instance_id") <|> some (.str []))
  pure ⟨taskId, contextId, feedbackId, requestId, ownerInstanceId⟩

def PendingTaskRecord.fromJson (φ : FloatFormat F) (maxDigits : ℕ) (value : Str) :
    Option PendingTaskRecord :=
  match loads φ maxDigits value with
  | some (.obj ms) => ofMembers ms
  | _ => none

end Record

/-- The values that are kept: texts of JSON, and ids of instances. -/
abbrev PendingCommand := Command Text Str Text ℕ Unit

section RedisA2ATaskStore

variable {F : Type} (φ : FloatFormat F) (maxDigits : ℕ) (cjson : Str → Option (Json.Tree F))
  (keyPrefix : Text)

def key (taskId : Text) : Text := keyPrefix ++ text ":" ++ taskId

def ownerKey (taskId : Text) : Text := keyPrefix ++ text ":owner:" ++ taskId

def saveOwner (taskId ownerInstanceId : Text) : PendingCommand Unit :=
  set (ownerKey keyPrefix taskId) (chars ownerInstanceId)

def getOwner (taskId : Text) : PendingCommand (Option Str) := get (ownerKey keyPrefix taskId)

def removeOwner (taskId : Text) : PendingCommand Unit := del (ownerKey keyPrefix taskId)

def savePending (record : PendingTaskRecord) : PendingCommand Unit :=
  set (key keyPrefix record.taskId) (record.toJson φ)

/-- The record in a value, if there is one. -/
def readRecord : Option Str → PendingCommand (Option PendingTaskRecord)
  | none | some [] => pure none
  | some value =>
    match PendingTaskRecord.fromJson φ maxDigits value with
    | some record => pure (some record)
    | none => throw (.raised ())

def getPending (taskId : Text) : PendingCommand (Option PendingTaskRecord) := do
  let value ← get (key keyPrefix taskId)
  readRecord φ maxDigits value

/-- Whether a value is of the context and feedback, as Redis decodes it; an error of the script if
    it is nothing to find members in. -/
def claims (contextId feedbackId : Text) (value : Str) : Option Bool :=
  match cjson value with
  | some (.obj record) => some (textOf (record.lookup (.ofString "context_id")) = some contextId ∧
      textOf (record.lookup (.ofString "feedback_id")) = some feedbackId)
  | some (.arr _) | some (.str _) => some false
  | _ => none

/-- The script of a claim: the value is removed and returned if it is of the context and
    feedback. -/
def claimScript (k contextId feedbackId : Text) : PendingCommand (Option Str) := do
  let value ← get k
  match value with
  | none => pure none
  | some value =>
    match claims cjson contextId feedbackId value with
    | none => throw (.raised ())
    | some false => pure none
    | some true => do
      del k
      pure (some value)

def claimPending (taskId contextId feedbackId : Text) :
    PendingCommand (Option PendingTaskRecord) := do
  let value ← claimScript cjson (key keyPrefix taskId) contextId feedbackId
  readRecord φ maxDigits value

def remove (taskId : Text) : PendingCommand Unit := del (key keyPrefix taskId)

end RedisA2ATaskStore

/-! ## Tasks of owners -/

/-- A task, as far as the store reads it: the time of its status is in microseconds. -/
structure Task (β : Type) where
  id : Text
  contextId : Text
  state : ℕ
  timestamp : Option ℤ
  rest : β

structure ListTasksRequest where
  contextId : Text := []
  status : ℕ := 0
  statusTimestampAfter : Option ℤ := none
  pageToken : Text := []
  pageSize : ℤ := 0

structure ListTasksResponse (β : Type) where
  tasks : List (Task β)
  totalSize : ℕ
  pageSize : ℤ
  nextPageToken : Option Text

/-- What the store uses of the SDK: the format of tasks, scores for times, and page tokens. -/
structure Sdk (β σ : Type) where
  serialize : Task β → List UInt8
  parse : List UInt8 → Option (Task β)
  timestamp : ℤ → σ
  encodePageToken : Text → Text
  decodePageToken : Text → Option Text
  defaultPageSize : ℤ

inductive ListError
  | invalidParams
  | indexError
  deriving DecidableEq

/-- `l[start:stop]` from a start that is not negative. -/
def slice {α : Type} (l : List α) (start : ℕ) (stop : ℤ) : List α :=
  let stop := if stop < 0 then stop + l.length else stop
  (l.take stop.toNat).drop start

/-- `l[i]` -/
def item {α : Type} (l : List α) (i : ℤ) : Option α :=
  if 0 ≤ i then l[i.toNat]? else if 0 ≤ i + l.length then l[(i + l.length).toNat]? else none

section RedisA2ASDKTaskStore

variable {β σ : Type} (sdk : Sdk β σ)

abbrev TaskCommand (σ : Type) := Command Text Text Text σ ListError

/-- What a key of an owner is for. -/
inductive Slot
  | task (taskId : Text)
  | index
  deriving DecidableEq

def Slot.suffix : Slot → Text
  | task taskId => text ":task:" ++ taskId
  | index => text ":index"

def ownerTag (owner : Text) : Text := '{' :: owner ++ ['}']

def slotKey (keyPrefix owner : Text) (slot : Slot) : Text :=
  keyPrefix.rdropWhile (· = ':') ++ text ":" ++ ownerTag owner ++ slot.suffix

def taskKey (keyPrefix owner taskId : Text) : Text := slotKey keyPrefix owner (.task taskId)

def indexKey (keyPrefix owner : Text) : Text := slotKey keyPrefix owner .index

/-- The score of a task: the time of its status, or else the time now. -/
def score (now : σ) (task : Task β) : σ := (task.timestamp.map sdk.timestamp).getD now

def serializeTask (task : Task β) : Text := Base64.b64encode (sdk.serialize task)

def deserializeTask (value : Text) : Option (Task β) := Base64.b64decode value >>= sdk.parse

/-- A task that a request for tasks is about. -/
def Selected (params : ListTasksRequest) (task : Task β) : Prop :=
  (params.contextId = [] ∨ task.contextId = params.contextId) ∧
    (params.status = 0 ∨ task.state = params.status) ∧
    ∀ after ∈ params.statusTimestampAfter, ∃ t ∈ task.timestamp, after ≤ t

instance decidableSelected (params : ListTasksRequest) (task : Task β) :
    Decidable (Selected params task) := inferInstanceAs (Decidable (_ ∧ _ ∧ _))

def startIndex (params : ListTasksRequest) (tasks : List (Task β)) : Option ℕ :=
  if params.pageToken = [] then some 0
  else sdk.decodePageToken params.pageToken >>= fun id => tasks.findIdx? (·.id = id)

/-- A page of the tasks that are selected. -/
def page (params : ListTasksRequest) (tasks : List (Task β)) :
    Except ListError (ListTasksResponse β) :=
  match startIndex sdk params tasks with
  | none => .error .invalidParams
  | some start =>
    let pageSize := if params.pageSize = 0 then sdk.defaultPageSize else params.pageSize
    let response := fun next => ⟨slice tasks start (start + pageSize), tasks.length, pageSize, next⟩
    if start + pageSize < tasks.length then
      match item tasks (start + pageSize) with
      | none => .error .indexError
      | some task => .ok (response (some (sdk.encodePageToken task.id)))
    else .ok (response none)

variable (keyPrefix : Text)

/-- Deadlines aside, which are set for both keys. -/
def saveTask (owner : Text) (task : Task β) (now : σ) : TaskCommand σ Unit :=
  discard (pipeline [set (taskKey keyPrefix owner task.id) (serializeTask sdk task),
    zadd (indexKey keyPrefix owner) task.id (score sdk now task)])

def getTask (owner taskId : Text) : TaskCommand σ (Option (Task β)) := do
  let value ← get (taskKey keyPrefix owner taskId)
  pure ((value.filter (· ≠ [])).bind (deserializeTask sdk))

/-- The tasks of values that can be read, if they are selected. -/
def selectedTasks (params : ListTasksRequest) (values : List (Option Text)) : List (Task β) :=
  (values.filterMap (· >>= deserializeTask sdk)).filter fun task => Selected params task

/-- The ids without a value. -/
def staleIds (taskIds : List Text) (values : List (Option Text)) : List Text :=
  ((taskIds.zip values).filter (·.2 = none)).map Prod.fst

def dropStale (owner : Text) (staleIds : List Text) : TaskCommand σ Unit :=
  if staleIds ≠ [] then zrem (indexKey keyPrefix owner) staleIds else pure ()

def raise {α : Type} : Except ListError α → TaskCommand σ α
  | .ok x => pure x
  | .error e => throw (.raised e)

def listTasks [LinearOrder σ] (owner : Text) (params : ListTasksRequest) :
    TaskCommand σ (ListTasksResponse β) := do
  let taskIds ← zrevrange (indexKey keyPrefix owner)
  let values ← pipeline (taskIds.map fun taskId => get (taskKey keyPrefix owner taskId))
  dropStale keyPrefix owner (staleIds taskIds values)
  raise (page sdk params (selectedTasks sdk params values))

def deleteTask (owner taskId : Text) : TaskCommand σ Unit :=
  discard (pipeline [del (taskKey keyPrefix owner taskId),
    zrem (indexKey keyPrefix owner) [taskId]])

end RedisA2ASDKTaskStore

end Hyperforge.A2a
