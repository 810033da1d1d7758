import Hyperforge.Library.Pool
import Hyperforge.Library.Redis
import Mathlib.Data.String.Defs

/-!
# The sessions of MCP servers

The store of the sessions and calls of a server of tools (`MCPSessionStore`), which workers
share. Each of its operations is a program of Redis commands (`program`), and any number
of them run at once, while time passes (`system`).

An operation that fails, is cancelled or runs out of time is one that takes no further
command. Identifiers from `uuid4` are new: none is drawn twice.
-/

namespace Hyperforge.Mcp

open Concurrent Redis

abbrev Text := List Char

instance : LawfulBEq Text := inferInstance

/-- `uuid4().hex`, and the identifiers that are accepted as those of sessions. -/
structure Uuid where
  hex : Text
  length_eq : hex.length = 32
  digits : ∀ c ∈ hex, c ∈ "0123456789abcdef".toList
  deriving DecidableEq

inductive RequestId
  | str (s : Text)
  | int (i : ℤ)
  deriving DecidableEq

/-- A session, with the parameters of its initialization. -/
structure MCPSession (Params : Type) where
  params : Params
  ready : Bool
  deriving DecidableEq

structure MCPUpdates where
  cancelled : Bool
  replies : List (Text × Text)
  deriving DecidableEq

/-- Why an operation fails. -/
inductive Failure
  | http (status : ℕ) (detail : String)
  | invalid
  deriving DecidableEq

/-- What the operations for a server depend on: the digests of its key and of the ids of requests,
    how sessions are written, and the time they live. -/
structure Server (Params : Type) where
  digest : Text
  requestDigest : RequestId → Text
  dump : MCPSession Params → Text
  load : Text → Option (MCPSession Params)
  ttl : ℕ
  ttl_pos : 0 < ttl
  limit : ℕ

/-- What operations share: Redis, and which of them has drawn each identifier. -/
structure Coordination where
  redis : Keyspace Text Text
  drawn : Uuid → Option ℕ

abbrev Operation := Program Coordination Uuid

/-- A command, or a transaction. -/
def redis {β : Type} (command : Command Text Text β) : Operation β :=
  .act fun s _ => (command s.redis).map fun r => (r.1, { s with redis := r.2 })

/-- `uuid4().hex`, drawn by an operation. -/
def uuid4 (i : ℕ) : Operation Uuid :=
  .act fun s u =>
    match s.drawn u with
    | none => some (u, { s with drawn := Function.update s.drawn u (some i) })
    | some _ => none

section

variable {Params : Type} (V : Server Params)

/-! ## Names of keys -/

namespace Server

/-- The common part of the names: `mcp:` and the digest in braces. -/
def keyPrefix : Text := "mcp:\x7b".toList ++ V.digest ++ "\x7d".toList

def registry : Text := V.keyPrefix ++ ":sessions".toList

def name (sid : Uuid) : Text := V.keyPrefix ++ ":".toList ++ sid.hex

def callKey (sid : Uuid) (requestId : RequestId) : Text :=
  V.name sid ++ ":call:".toList ++ V.requestDigest requestId

def replyKey (sid : Uuid) (wireId : Text) : Text := V.name sid ++ ":reply:".toList ++ wireId

end Server

/-! ## Operations -/

/-- `_add` -/
def add (name value : Text) : Operation (Except Failure Unit) := do
  let added ← redis (setNx name value V.ttl)
  if added then return .ok ()
  else return .error (.http 409 "MCP request is already active")

/-- What `_change` writes. -/
def write (name : Text) : Option Text → Command Text Text Unit
  | none => del name
  | some value => setKeepTtl name value

/-- `_change`, with what there was before. -/
def change (name : Text) (f : Option Text → Option Text) : Operation (Option Text) :=
  .repeat_ do
    let w ← redis (watch name)
    let previous ← redis (Redis.get name)
    let value := f previous
    if value = previous then return some previous
    let executed ← redis (exec w (write name value))
    return executed.map fun _ => previous

/-- `_read` -/
def read (names : List Text) : Operation (List (Option Text)) :=
  redis (names.mapM fun name => getex name V.ttl)

/-- `_delete` -/
def delete_ (names : List Text) : Operation Unit := redis (names.forM del)

/-- `_expired` -/
def expired : List Text → Operation (List Text)
  | [] => return []
  | sid :: ids => do
    let present ← redis (exists_ (V.keyPrefix ++ ":".toList ++ sid))
    let rest ← expired ids
    return if present then rest else sid :: rest

def sessionCount : Operation ℕ := do
  let ids ← redis (smembers V.registry)
  if ids = [] then return 0
  let expired ← expired V ids
  if expired ≠ [] then redis (srem V.registry expired)
  return ids.length - expired.length

/-- The transaction of `create`. -/
def register (sid : Uuid) (value : Text) (expired : List Text) (remaining : ℤ) :
    Command Text Text Unit := do
  if expired ≠ [] then srem V.registry expired
  set (V.name sid) value V.ttl
  sadd V.registry sid.hex
  expire V.registry (max V.ttl remaining)

def create (i : ℕ) (params : Params) : Operation (Except Failure Uuid) := do
  let sid ← uuid4 i
  .repeat_ do
    let w ← redis (watch V.registry)
    let ids ← redis (smembers V.registry)
    let expired ← expired V ids
    if ids.length - expired.length ≥ V.limit then
      return some (.error (.http 503 "MCP session capacity is exhausted"))
    let remaining ← redis (ttl V.registry)
    let value := V.dump ⟨params, false⟩
    let executed ← redis (exec w (register V sid value expired remaining))
    return executed.map fun _ => .ok sid

/-- The transaction of `get`. -/
def renew (sid : Uuid) : Command Text Text (Option Text) := do
  let value ← getex (V.name sid) V.ttl
  expireGt V.registry V.ttl
  return value

/-- The session that has been read. -/
def loaded : Option Text → Except Failure (MCPSession Params)
  | none => .error (.http 404 "MCP session not found")
  | some value =>
    match V.load value with
    | none => .error .invalid
    | some session => .ok session

def get (sid : Uuid) : Operation (Except Failure (MCPSession Params)) := do
  let value ← redis (renew V sid)
  return loaded V value

def ready (sid : Uuid) : Operation (Except Failure Unit) := do
  match ← get V sid with
  | .error e => return .error e
  | .ok session =>
    let _ ← change (V.name sid) fun
      | none => none
      | some [] => some []
      | some _ => some (V.dump { session with ready := true })
    return .ok ()

def delete (sid : Uuid) : Operation Unit := delete_ [V.name sid]

def start (i : ℕ) (sid : Uuid) (requestId : RequestId) : Operation (Except Failure Uuid) := do
  let token ← uuid4 i
  match ← add V (V.callKey sid requestId) token.hex with
  | .error e => return .error e
  | .ok () => return .ok token

/-- The value of a marker whose call has been cancelled. -/
def cancelledMarker (value : Text) : Text := "cancelled:".toList ++ value

def cancel (sid : Uuid) (requestId : RequestId) : Operation Unit := do
  let _ ← change (V.callKey sid requestId) fun
    | none => none
    | some value =>
      if value ≠ [] ∧ ¬"cancelled:".toList <+: value then some (cancelledMarker value)
      else some value

def pending (sid : Uuid) (wireId : Text) : Operation (Except Failure Unit) :=
  add V (V.replyKey sid wireId) []

def reply (sid : Uuid) (wireId body : Text) : Operation (Except Failure Bool) := do
  let previous ← change (V.replyKey sid wireId) fun value =>
    if value = some [] then some body else value
  if previous ∉ [none, some [], some body] then
    return .error (.http 409 "MCP request already has a different response")
  else return .ok previous.isSome

/-- What `poll` returns of the marker of the call and the replies that it reads. -/
def updates (token : Text) (wireIds : List Text) :
    List (Option Text) → Except Failure MCPUpdates
  | [] => .error .invalid
  | call :: replies => .ok {
      cancelled := call ≠ some token || replies.any Option.isNone
      replies := (wireIds.zip replies).filterMap fun
        | (_, none) | (_, some []) => none
        | (wireId, some reply) => some (wireId, reply) }

def poll (sid : Uuid) (requestId : RequestId) (token : Text) (wireIds : List Text) :
    Operation (Except Failure MCPUpdates) := do
  match ← get V sid with
  | .error e => return .error e
  | .ok _ =>
    let values ← read V (V.callKey sid requestId :: wireIds.map (V.replyKey sid))
    return updates token wireIds values

def acknowledge (sid : Uuid) (ids : List Text) : Operation Unit := do
  if ids ≠ [] then delete_ (ids.map (V.replyKey sid))

def finish (sid : Uuid) (requestId : RequestId) (token : Text) (pending : List Text) :
    Operation Unit := do
  let _ ← change (V.callKey sid requestId) fun value =>
    if value = some token ∨ value = some (cancelledMarker token) then none else value
  acknowledge V sid pending

end

/-! ## All operations -/

/-- An operation on the store. -/
inductive Op (Params : Type)
  | sessionCount
  | create (params : Params)
  | get (sid : Uuid)
  | ready (sid : Uuid)
  | delete (sid : Uuid)
  | start (sid : Uuid) (requestId : RequestId)
  | cancel (sid : Uuid) (requestId : RequestId)
  | pending (sid : Uuid) (wireId : Text)
  | reply (sid : Uuid) (wireId body : Text)
  | poll (sid : Uuid) (requestId : RequestId) (token : Text) (pending : List Text)
  | acknowledge (sid : Uuid) (ids : List Text)
  | finish (sid : Uuid) (requestId : RequestId) (token : Text) (pending : List Text)
  deriving DecidableEq

/-- What an operation returns. -/
def Op.Result {Params : Type} : Op Params → Type
  | sessionCount => ℕ
  | create _ => Except Failure Uuid
  | get _ => Except Failure (MCPSession Params)
  | ready _ => Except Failure Unit
  | delete _ => Unit
  | start _ _ => Except Failure Uuid
  | cancel _ _ => Unit
  | pending _ _ => Except Failure Unit
  | reply _ _ _ => Except Failure Bool
  | poll _ _ _ _ => Except Failure MCPUpdates
  | acknowledge _ _ => Unit
  | finish _ _ _ _ => Unit

instance Op.decidableEqResult {Params : Type} [DecidableEq Params] :
    (op : Op Params) → DecidableEq op.Result
  | .sessionCount => inferInstanceAs (DecidableEq ℕ)
  | .create _ => inferInstanceAs (DecidableEq (Except Failure Uuid))
  | .get _ => inferInstanceAs (DecidableEq (Except Failure (MCPSession Params)))
  | .ready _ => inferInstanceAs (DecidableEq (Except Failure Unit))
  | .delete _ => inferInstanceAs (DecidableEq Unit)
  | .start _ _ => inferInstanceAs (DecidableEq (Except Failure Uuid))
  | .cancel _ _ => inferInstanceAs (DecidableEq Unit)
  | .pending _ _ => inferInstanceAs (DecidableEq (Except Failure Unit))
  | .reply _ _ _ => inferInstanceAs (DecidableEq (Except Failure Bool))
  | .poll _ _ _ _ => inferInstanceAs (DecidableEq (Except Failure MCPUpdates))
  | .acknowledge _ _ => inferInstanceAs (DecidableEq Unit)
  | .finish _ _ _ _ => inferInstanceAs (DecidableEq Unit)

variable {Params : Type} (V : Server Params)

/-- The program of the `i`-th operation. -/
def program (i : ℕ) : (op : Op Params) → Operation op.Result
  | .sessionCount => sessionCount V
  | .create params => create V i params
  | .get sid => get V sid
  | .ready sid => ready V sid
  | .delete sid => delete V sid
  | .start sid requestId => start V i sid requestId
  | .cancel sid requestId => cancel V sid requestId
  | .pending sid wireId => pending V sid wireId
  | .reply sid wireId body => reply V sid wireId body
  | .poll sid requestId token wireIds => poll V sid requestId token wireIds
  | .acknowledge sid ids => acknowledge V sid ids
  | .finish sid requestId token wireIds => finish V sid requestId token wireIds

/-- Time passes, in milliseconds. -/
def tick (s : Coordination) (d : ℕ) : Option Coordination :=
  some { s with redis := s.redis.tick d }

/-- Nothing is stored at first, nor has an identifier been drawn. -/
def Initial (s : Coordination) : Prop :=
  (∀ k, s.redis.entries k = none ∧ s.redis.revision k = 0) ∧ ∀ u, s.drawn u = none

/-- The operations that workers run on the store, in any order. -/
def sessionStore : Transition.System (Pool Coordination Uuid (Op Params) Op.Result)
    (Label Uuid (Op Params) ℕ) :=
  Pool.system (program V) tick Initial

end Hyperforge.Mcp
