import Hyperforge.Library.Pool
import Hyperforge.Library.Json.Dict

/-!
# The pool of MCP servers

The servers of a worker, one for each key (`MCPServerPool`). Tasks acquire leases of them and
release these, creation tasks make new ones, and they are removed, reaped when they have been
idle, evicted for others and shut down. Each is a program (`MCPServerPool.program`) that awaits a
lock of the pool, servers and other tasks; between two awaits nothing else runs.

A creation task is cancelled when that has been requested, by the next of its awaits; other tasks
may be at any await. Time is that of a clock that does not go back.
-/

namespace Hyperforge.Mcp

open Concurrent Json

/-- A server. Its task has been cancelled when it is closed. -/
structure ManagedMCPServer where
  hasBeenLeased : Bool
  activeRequests : ℤ
  lastUsed : ℕ
  closed : Bool

def ManagedMCPServer.close (m : ManagedMCPServer) : ManagedMCPServer := { m with closed := true }

def ManagedMCPServer.reserveRequest (now : ℕ) (m : ManagedMCPServer) : ManagedMCPServer :=
  { m with hasBeenLeased := true, activeRequests := m.activeRequests + 1, lastUsed := now }

/-- What `release_request` does to a server with requests. -/
def ManagedMCPServer.releaseRequest (now : ℕ) (m : ManagedMCPServer) : ManagedMCPServer :=
  { m with activeRequests := m.activeRequests - 1, lastUsed := now }

structure MCPRequestLease where
  server : ℕ
  released : Bool

/-- Why an operation of the pool fails. -/
inductive PoolError
  | http (status : ℕ) (detail : String)
  | runtime (message : String)
  | failed
  | cancelled
  deriving DecidableEq

/-- What a creation task does: what its `try` has, what its handler has, or nothing any more. -/
inductive Phase
  | running
  | cleaning
  | done (result : Except PoolError ℕ)
  deriving DecidableEq

/-- A task of `_create_server`, with its variables. -/
structure CreationTask (Key : Type) where
  key : Key
  stale : Option ℕ
  candidate : Option ℕ
  cancelling : Bool
  phase : Phase

/-- A pool, with the servers and leases that there have been, which are told apart by numbers. -/
structure MCPServerPool (Key : Type) where
  servers : List (Key × ℕ)
  creating : List (Key × ℕ)
  shuttingDown : Bool
  reaper : Option ℕ
  lock : Option ℕ
  managed : List ManagedMCPServer
  leases : List MCPRequestLease
  tasks : ℕ → Option (CreationTask Key)
  now : ℕ

structure PoolSettings where
  maxServers : ℕ
  idleTtl : ℕ

/-- What comes of an await: it returns, with a number, or raises, or the task is cancelled. -/
inductive Awaited
  | returns (n : ℕ)
  | raises
  | cancelled

abbrev PoolOperation (Key : Type) := Program (MCPServerPool Key) Awaited

def shuttingDownError : PoolError := .http 503 "MCP service is shutting down"

def capacityError : PoolError :=
  .http 503 "MCP server capacity is occupied by established sessions"

def interruptedError : PoolError := .http 503 "MCP server initialization was interrupted"

namespace MCPServerPool

variable {Key : Type}

/-! ## Changes -/

/-- `server.close()` -/
def close (id : ℕ) (s : MCPServerPool Key) : MCPServerPool Key :=
  { s with managed := s.managed.modify id ManagedMCPServer.close }

/-- `_lease` -/
def lease (id : ℕ) (s : MCPServerPool Key) : MCPServerPool Key :=
  { s with
    managed := s.managed.modify id (.reserveRequest s.now)
    leases := s.leases ++ [⟨id, false⟩] }

/-- A creation task has changed. -/
def setTask (i : ℕ) (t : CreationTask Key) (s : MCPServerPool Key) : MCPServerPool Key :=
  { s with tasks := Function.update s.tasks i (some t) }

/-- `creating_task.cancel()`, of which nothing comes if it is done. -/
def requestCancel (i : ℕ) (s : MCPServerPool Key) : MCPServerPool Key :=
  { s with tasks := Function.update s.tasks i ((s.tasks i).map fun t =>
      { t with cancelling := true }) }

/-! ## Awaits -/

/-- An await of a task that is not a creation. -/
def await_ : PoolOperation Key (Except PoolError ℕ) :=
  .act fun s => fun
    | .returns n => some (.ok n, s)
    | .raises => some (.error .failed, s)
    | .cancelled => some (.error .cancelled, s)

/-- The lock, for a task that is not a creation. -/
def acquireLock (i : ℕ) : PoolOperation Key (Except PoolError Unit) :=
  .act fun s => fun
    | .cancelled => some (.error .cancelled, s)
    | _ => if s.lock = none then some (.ok (), { s with lock := some i }) else none

def releaseLock : PoolOperation Key Unit := .act fun s _ => some ((), { s with lock := none })

/-- An await of a creation task, in its `try`. -/
def creationAwait (i : ℕ) : PoolOperation Key (Except PoolError ℕ) :=
  .act fun s c =>
    match s.tasks i with
    | none => none
    | some t =>
      let raised := s.setTask i { t with phase := .cleaning, cancelling := false }
      if t.cancelling then some (.error .cancelled, raised)
      else
        match c with
        | .returns n => some (.ok n, s)
        | .raises => some (.error .failed, raised)
        | .cancelled => none

def creationLock (i : ℕ) : PoolOperation Key (Except PoolError Unit) :=
  .act fun s _ =>
    match s.tasks i with
    | none => none
    | some t =>
      if t.cancelling then
        some (.error .cancelled, s.setTask i { t with phase := .cleaning, cancelling := false })
      else if s.lock = none then some (.ok (), { s with lock := some i })
      else none

/-- An exception raised by a creation task that has the lock. As it has run since its last await,
    no cancellation is pending. -/
def raise_ (i : ℕ) : PoolOperation Key Unit :=
  .act fun s _ => (s.tasks i).map fun t =>
    ((), { s.setTask i { t with phase := .cleaning, cancelling := false } with lock := none })

/-- A creation task starts when it has been spawned. -/
def begin_ (i : ℕ) : PoolOperation Key (CreationTask Key) :=
  .act fun s _ =>
    match s.tasks i with
    | some t => if t.phase = .running then some (t, s) else none
    | none => none

/-- The variables of a creation task. -/
def itself (i : ℕ) : PoolOperation Key (CreationTask Key) :=
  .act fun s _ => (s.tasks i).map fun t => (t, s)

/-- `server.stop()`, up to what it awaits. -/
def closing (id : ℕ) : PoolOperation Key Unit := .act fun s _ => some ((), s.close id)

/-- The factory, which may do anything about a cancellation. Its server is as old as it says. -/
def factory (i : ℕ) : PoolOperation Key (Except PoolError Unit) :=
  .act fun s c =>
    match s.tasks i with
    | none => none
    | some t =>
      let raised := s.setTask i { t with phase := .cleaning, cancelling := false }
      match c with
      | .returns n => some (.ok (), { s.setTask i
            { t with candidate := some s.managed.length, cancelling := false } with
          managed := s.managed ++ [⟨false, 0, min n s.now, false⟩] })
      | .raises => some (.error .failed, raised)
      | .cancelled => if t.cancelling then some (.error .cancelled, raised) else none

/-- An await of the handler, which a cancellation ends, and the task with it. -/
def cleanupAwait (i : ℕ) : PoolOperation Key Bool :=
  .act fun s c =>
    match s.tasks i with
    | none => none
    | some t =>
      if t.cancelling then
        some (false, s.setTask i
          { t with phase := .done (.error .cancelled), cancelling := false })
      else
        match c with
        | .returns _ => some (true, s)
        | _ => none

/-- The lock, for the handler. -/
def cleanupLock (i : ℕ) : PoolOperation Key Bool :=
  .act fun s _ =>
    match s.tasks i with
    | none => none
    | some t =>
      if t.cancelling then
        some (false, s.setTask i
          { t with phase := .done (.error .cancelled), cancelling := false })
      else if s.lock = none then some (true, { s with lock := some i })
      else none

/-- `asyncio.shield(creating_task)` -/
def shield (j : ℕ) : PoolOperation Key (Except PoolError ℕ) :=
  .act fun s => fun
    | .cancelled => some (.error .cancelled, s)
    | _ =>
      match s.tasks j with
      | some { phase := .done result, .. } => some (result, s)
      | _ => none

/-- `asyncio.gather(creating_task)`, which cancels the task as well if it is cancelled. -/
def gather (j : ℕ) : PoolOperation Key (Except PoolError Unit) :=
  .act fun s => fun
    | .cancelled => some (.error .cancelled, s.requestCancel j)
    | _ =>
      match s.tasks j with
      | some { phase := .done _, .. } => some (.ok (), s)
      | _ => none

/-! ## Release and shutdown -/

/-- `MCPRequestLease.release` -/
def release (l : ℕ) : PoolOperation Key (Except PoolError Unit) :=
  .act fun s _ => s.leases[l]?.bind fun lease =>
    if lease.released then some (.ok (), s)
    else
      let s := { s with leases := s.leases.set l { lease with released := true } }
      s.managed[lease.server]?.map fun m =>
        if m.activeRequests ≤ 0 then
          (.error (.runtime "MCP request lease released more than once"), s)
        else (.ok (), { s with managed := s.managed.set lease.server (m.releaseRequest s.now) })

/-- What `shutdown` does with the lock. -/
def clear : PoolOperation Key Unit :=
  .act fun s _ =>
    if s.shuttingDown then some ((), { s with lock := none })
    else
      let s' := s.creating.foldl (fun s m => s.requestCancel m.2) s
      let s' := s.servers.foldl (fun s m => s.close m.2) s'
      some ((), { s' with servers := [], creating := [], shuttingDown := true, lock := none })

def shutdown (i : ℕ) : PoolOperation Key (Except PoolError Unit) := do
  match ← acquireLock i with
  | .error e => return .error e
  | .ok () =>
    clear
    match ← await_ with
    | .error e => return .error e
    | .ok _ => return .ok ()

variable (V : PoolSettings)

/-! ## Capacity -/

def clock : PoolOperation Key ℕ := .act fun s _ => some (s.now, s)

def look (id : ℕ) : PoolOperation Key ManagedMCPServer :=
  .act fun s _ => s.managed[id]?.map fun m => (m, s)

/-- A server that has not been used for the time that it may be idle. -/
def idle (now id : ℕ) : PoolOperation Key (Except PoolError Bool) := do
  let server ← look id
  return .ok (server.lastUsed + V.idleTtl ≤ now)

/-- The condition of `_evict_one`. The session count is awaited. -/
def evictable (wait : PoolOperation Key (Except PoolError ℕ)) (now id : ℕ) :
    PoolOperation Key (Except PoolError Bool) := do
  let server ← look id
  if server.activeRequests ≠ 0 then return .ok false
  else if server.hasBeenLeased then
    match ← wait with
    | .error e => return .error e
    | .ok 0 => return .ok true
    | .ok _ => idle V now id
  else idle V now id

def candidates (wait : PoolOperation Key (Except PoolError ℕ)) (now : ℕ) :
    List (Key × ℕ) → PoolOperation Key (Except PoolError (List (Key × ℕ)))
  | [] => return .ok []
  | m :: servers => do
    match ← evictable V wait now m.2 with
    | .error e => return .error e
    | .ok isCandidate =>
      match ← candidates wait now servers with
      | .error e => return .error e
      | .ok rest => return .ok (if isCandidate then m :: rest else rest)

/-- The candidate that has been used least recently, the first of them. -/
def leastRecent (s : MCPServerPool Key) (ms : List (Key × ℕ)) : Option (Key × ℕ) :=
  ms.minOn? fun m => (s.managed[m.2]?.map ManagedMCPServer.lastUsed).getD 0

variable [DecidableEq Key]

/-- A server that is no longer that of its key, and closed. -/
def retire (m : Key × ℕ) (s : MCPServerPool Key) : MCPServerPool Key :=
  { s.close m.2 with servers := pop m.1 s.servers }

/-- `_evict_one`. The servers are those of a pool whose lock is held. -/
def evictOne (wait : PoolOperation Key (Except PoolError ℕ)) :
    PoolOperation Key (Except PoolError Unit) := do
  let now ← clock
  let servers ← .act fun s _ => some (s.servers, s)
  match ← candidates V wait now servers with
  | .error e => return .error e
  | .ok ms => .act fun s _ =>
    match s.leastRecent ms with
    | none => some (.error capacityError, s)
    | some m => some (.ok (), s.retire m)

/-- `_evict_one`, while the pool is full. -/
def evictWhile (full : MCPServerPool Key → Bool)
    (wait : PoolOperation Key (Except PoolError ℕ)) : PoolOperation Key (Except PoolError Unit) :=
  .repeat_ do
    let isFull ← .act fun s _ => some (full s, s)
    if isFull then
      match ← evictOne V wait with
      | .error e => return some (.error e)
      | .ok () => return none
    else return some (.ok ())

/-- `_evict_for_capacity` -/
def evictForCapacity (i : ℕ) : PoolOperation Key (Except PoolError Unit) :=
  evictWhile V (fun s => V.maxServers ≤ s.servers.length) (creationAwait i)

/-- `_reserve_capacity` -/
def reserveCapacity : PoolOperation Key (Except PoolError Unit) :=
  evictWhile V (fun s => V.maxServers ≤ s.servers.length + s.creating.length) await_

/-! ## Leases -/

/-- What `acquire` finds of a key. -/
inductive Found
  | fails (e : PoolError)
  | leased (l : ℕ)
  | waits (task : ℕ)
  | creates (stale : Option ℕ)

/-- The server of a key, if it has been idle and is not in use. -/
def staleServer (s : MCPServerPool Key) (key : Key) : Option ℕ :=
  (s.servers.lookup key).filter fun id => s.managed[id]?.any fun m =>
    m.activeRequests = 0 ∧ m.lastUsed + V.idleTtl ≤ s.now

/-- The task that creates the server of a key, or that there is to be one. -/
def findTask (stale : Option ℕ) (key : Key) (s : MCPServerPool Key) : Found × MCPServerPool Key :=
  match s.creating.lookup key with
  | some j => (.waits j, { s with lock := none })
  | none => (.creates stale, s)

/-- What `acquire` does first when it has the lock. The first time, the reaper is started. -/
def find (key : Key) : PoolOperation Key Found :=
  .act fun s c =>
    if s.shuttingDown then some (.fails shuttingDownError, { s with lock := none })
    else
      match c with
      | .returns n =>
        let s := { s with reaper := s.reaper.or (some n) }
        match s.staleServer V key with
        | some id => some ((s.retire (key, id)).findTask (some id) key)
        | none =>
          match s.servers.lookup key with
          | some id => some (.leased s.leases.length, { s.lease id with lock := none })
          | none => some (s.findTask none key)
      | _ => none

/-- A new creation task, and the lock is released. -/
def spawn (key : Key) (stale : Option ℕ) : PoolOperation Key ℕ :=
  .act fun s => fun
    | .returns j =>
      match s.tasks j with
      | some _ => none
      | none => some (j, { s.setTask j ⟨key, stale, none, false, .running⟩ with
          creating := assign key j s.creating
          lock := none })
    | _ => none

/-- A lease of the server that has been created, and the lock is released. -/
def leaseCreated (key : Key) (created : ℕ) : PoolOperation Key (Except PoolError ℕ) :=
  .act fun s _ =>
    if s.shuttingDown then some (.error shuttingDownError, { s with lock := none })
    else if s.servers.lookup key ≠ some created then
      some (.error interruptedError, { s with lock := none })
    else some (.ok s.leases.length, { s.lease created with lock := none })

/-- What `acquire` does once there is a creation task. -/
def awaitCreated (i : ℕ) (key : Key) (j : ℕ) : PoolOperation Key (Except PoolError ℕ) := do
  match ← shield j with
  | .error e => return .error e
  | .ok created =>
    match ← acquireLock i with
    | .error e => return .error e
    | .ok () => leaseCreated key created

def acquire (i : ℕ) (key : Key) : PoolOperation Key (Except PoolError ℕ) := do
  match ← acquireLock i with
  | .error e => return .error e
  | .ok () =>
    match ← find V key with
    | .fails e => return .error e
    | .leased l => return .ok l
    | .waits j => awaitCreated i key j
    | .creates stale =>
      match ← reserveCapacity V with
      | .error e =>
        releaseLock
        return .error e
      | .ok () =>
        let j ← spawn key stale
        awaitCreated i key j

/-! ## Creation -/

/-- The candidate becomes the server of its key, and the lock is released. -/
def register (i : ℕ) : PoolOperation Key Unit :=
  .act fun s _ => (s.tasks i).bind fun t => t.candidate.map fun candidate =>
    ((), { s.setTask i { t with phase := .done (.ok candidate) } with
      servers := assign t.key candidate s.servers
      creating := pop t.key s.creating
      lock := none })

/-- The end of the handler: the task is no longer that of its key, and raises again. -/
def leave (i : ℕ) (e : PoolError) : PoolOperation Key Unit :=
  .act fun s _ => (s.tasks i).map fun t =>
    ((), { s.setTask i { t with phase := .done (.error e) } with
      creating := if s.creating.lookup t.key = some i then pop t.key s.creating else s.creating
      lock := none })

/-- The candidate of a creation that has failed is stopped. -/
def stopCandidate (i : ℕ) : Option ℕ → PoolOperation Key Bool
  | none => return true
  | some id => do
    closing id
    cleanupAwait i

/-- The handler of `_create_server`. -/
def cleanUp (i : ℕ) (e : PoolError) : PoolOperation Key Unit := do
  let t ← itself i
  if ← stopCandidate i t.candidate then
    if ← cleanupLock i then leave i e
    else return ()
  else return ()

/-- What a creation does with the lock. -/
def enroll (i : ℕ) : PoolOperation Key (Except PoolError Unit) := do
  let shuttingDown ← .act fun s _ => some (s.shuttingDown, s)
  if shuttingDown then
    raise_ i
    return .error shuttingDownError
  else
    match ← evictForCapacity V i with
    | .error e =>
      raise_ i
      return .error e
    | .ok () =>
      register i
      return .ok ()

/-- The stale server is stopped before its successor is made. -/
def stopStale (i : ℕ) : Option ℕ → PoolOperation Key (Except PoolError ℕ)
  | none => return .ok 0
  | some id => do
    closing id
    creationAwait i

/-- The `try` of `_create_server`. -/
def attempt (i : ℕ) : PoolOperation Key (Except PoolError Unit) := do
  let t ← begin_ i
  match ← stopStale i t.stale with
  | .error e => return .error e
  | .ok _ =>
    match ← factory i with
    | .error e => return .error e
    | .ok () =>
      match ← creationLock i with
      | .error e => return .error e
      | .ok () => enroll V i

/-- `_create_server` -/
def createServer (i : ℕ) : PoolOperation Key Unit := do
  match ← attempt V i with
  | .error e => cleanUp i e
  | .ok () => return ()

/-! ## Removal -/

/-- What `remove` does with the lock: the server of the key is closed, and the task that creates
    one is cancelled. -/
def take (key : Key) : PoolOperation Key (Option ℕ × Option ℕ) :=
  .act fun s _ =>
    let server := s.servers.lookup key
    let task := s.creating.lookup key
    let s := { s with servers := pop key s.servers, lock := none }
    let s := task.elim s fun j => s.requestCancel j
    some ((server, task), server.elim s fun id => s.close id)

/-- The server that has been closed ends. -/
def stopRemoved : Option ℕ → PoolOperation Key (Except PoolError ℕ)
  | none => return .ok 0
  | some _ => await_

def gatherRemoved : Option ℕ → PoolOperation Key (Except PoolError Unit)
  | none => return .ok ()
  | some j => gather j

def remove (i : ℕ) (key : Key) : PoolOperation Key (Except PoolError Unit) := do
  match ← acquireLock i with
  | .error e => return .error e
  | .ok () =>
    let (server, task) ← take key
    match ← stopRemoved server with
    | .error e => return .error e
    | .ok _ => gatherRemoved task

/-- The idle servers are retired, and the lock is released. -/
def reap (now : ℕ) : PoolOperation Key (List (Key × ℕ)) :=
  .act fun s _ =>
    let expired := s.servers.filter fun m => s.managed[m.2]?.any fun server =>
      server.activeRequests = 0 ∧ server.lastUsed + V.idleTtl ≤ now
    some (expired, { expired.foldl (fun s m => s.retire m) s with lock := none })

/-- `_reap_idle_servers`, once it has been started and until it is cancelled. -/
def reapIdleServers (i : ℕ) : PoolOperation Key PoolError := do
  .act fun s _ => if s.reaper = some i then some ((), s) else none
  .repeat_ do
    match ← await_ with
    | .error e => return some e
    | .ok _ =>
      let now ← clock
      match ← acquireLock i with
      | .error e => return some e
      | .ok () =>
        let expired ← reap V now
        expired.forM fun m => closing m.2
        match ← await_ with
        | .error e => return some e
        | .ok _ => return none

end MCPServerPool

/-! ## All operations -/

/-- An operation on a pool, or a task of it. -/
inductive PoolOp (Key : Type)
  | acquire (key : Key)
  | release (lease : ℕ)
  | create
  | remove (key : Key)
  | shutdown
  | reap
  deriving DecidableEq

/-- What an operation returns. -/
def PoolOp.Result {Key : Type} : PoolOp Key → Type
  | acquire _ => Except PoolError ℕ
  | release _ => Except PoolError Unit
  | create => Unit
  | remove _ => Except PoolError Unit
  | shutdown => Except PoolError Unit
  | reap => PoolError

instance PoolOp.decidableEqResult {Key : Type} : (op : PoolOp Key) → DecidableEq op.Result
  | .acquire _ => inferInstanceAs (DecidableEq (Except PoolError ℕ))
  | .release _ => inferInstanceAs (DecidableEq (Except PoolError Unit))
  | .create => inferInstanceAs (DecidableEq Unit)
  | .remove _ => inferInstanceAs (DecidableEq (Except PoolError Unit))
  | .shutdown => inferInstanceAs (DecidableEq (Except PoolError Unit))
  | .reap => inferInstanceAs (DecidableEq PoolError)

variable {Key : Type}

namespace MCPServerPool

/-- Time passes. -/
def tick (s : MCPServerPool Key) (d : ℕ) : Option (MCPServerPool Key) :=
  some { s with now := s.now + d }

/-- A new pool. -/
def Initial (s : MCPServerPool Key) : Prop :=
  s.servers = [] ∧ s.creating = [] ∧ s.shuttingDown = false ∧ s.reaper = none ∧ s.lock = none ∧
    s.managed = [] ∧ s.leases = [] ∧ ∀ i, s.tasks i = none

variable [DecidableEq Key] (V : PoolSettings)

/-- The program of the `i`-th operation. -/
def program (i : ℕ) : (op : PoolOp Key) → PoolOperation Key op.Result
  | .acquire key => acquire V i key
  | .release l => release l
  | .create => createServer V i
  | .remove key => remove i key
  | .shutdown => shutdown i
  | .reap => reapIdleServers V i

/-- The operations that a worker runs on a pool, in any order. -/
def system : Transition.System (Pool (MCPServerPool Key) Awaited (PoolOp Key) PoolOp.Result)
    (Label Awaited (PoolOp Key) ℕ) :=
  Pool.system (program V) tick Initial

end MCPServerPool

end Hyperforge.Mcp
