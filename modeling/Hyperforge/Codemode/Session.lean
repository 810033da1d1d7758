import Hyperforge.Library.Transition

/-!
# Sessions of a sandbox

Code runs in a worker, a process of its own. It calls the functions of its agent through a pipe to
the controller, a thread of the sandbox server, which schedules a callback for each call. The
callback sends a request to the client over a stream, and reads the response; the client has run
its own callback for that. When the worker ends, the server tells the client how.

The parties take their steps in any order (`SandboxStep`): a step is what is done between two
awaits, or up to a point where another thread or process may go on. The worker may be killed, time
may run out and the stream may be cut at any time.

Calls are numbered, to tell their requests, responses and results apart. The numbers are not sent.
What a call is about, the texts of errors and the encoding of messages are left out.
-/

namespace Hyperforge.Codemode.Session

open Transition

/-! ## The parties -/

/-- The messages on the stream, of which responses carry results in `R`. -/
inductive SandboxMessage (R : Type)
  | run
  | request (call : ℕ)
  | response (call : ℕ) (result : R)
  | done
  | error

/-- What a worker sends: calls, an error, and that it closes. -/
inductive Task
  | call (call : ℕ)
  | error
  | close

/-- What a call returns in the worker: the result that the client has sent, or a `WorkerError` made
    by the server. -/
inductive Outcome (R : Type)
  | result (call : ℕ) (result : R)
  | error

inductive Worker
  | notStarted
  | running
  | waiting
  /-- the code has raised an exception -/
  | raised
  /-- `_error` has been sent -/
  | reported
  /-- `_close` has been sent, and the process exits with code 0, or not -/
  | closing (clean : Bool)
  | exited (clean : Bool)

def Worker.alive : Worker → Bool
  | notStarted | exited _ => false
  | _ => true

/-- `read_write_queue` -/
inductive Controller (R : Type)
  | notStarted
  | reading
  /-- for the result of the future of a callback -/
  | waiting
  | resolved (outcome : Outcome R)
  | returned (clean : Bool)
  | failed

/-- The callback of a call: its intent is registered, it is scheduled, or it has sent a request. -/
inductive Callback
  | none
  | intent (call : ℕ)
  | scheduled (call : ℕ)
  | requested (call : ℕ)

/-- `SandboxSession.run`, after the handshake -/
inductive Server
  | handshake
  | awaiting
  | joining
  | failing
  | stopping
  | closed
  deriving DecidableEq

/-- How `_run_remotely` raises an exception. -/
inductive Failure
  | agentError
  | disconnected
  | unexpectedMessage
  | unexpectedMessageDuringCallback
  | other

inductive Client
  | reading
  | callback (call : ℕ)
  | returned
  | failed (failure : Failure)

def Client.ended : Client → Bool
  | returned | failed _ => true
  | _ => false

/-- The worker, the server and the client of a session, with what has been sent and not yet been
    read. The worker's calls have data in `T`. -/
structure Sandbox (T R : Type) where
  /-- whether the worker redacts its errors -/
  redactErrors : Bool
  worker : Worker := .notStarted
  calls : List T := []
  received : List (Outcome R) := []
  /-- whether an exception of the code has ended it -/
  hasRaised : Bool := false
  toController : List Task := []
  toWorker : List (Outcome R) := []
  pipeClosed : Bool := false
  controller : Controller R := .notStarted
  callback : Callback := .none
  callbacksClosed : Bool := false
  server : Server := .handshake
  timedOut : Bool := false
  /-- whether there has been a response of another kind -/
  unexpectedResponse : Bool := false
  toServer : List (SandboxMessage R) := [.run]
  toClient : List (SandboxMessage R) := []
  cut : Bool := false
  client : Client := .reading
  /-- the results of the client's callbacks -/
  answered : List (ℕ × R) := []

namespace Sandbox

variable {T R : Type} (s : Sandbox T R)

/-- Writes a message, which is lost if the stream has been cut. -/
def write (message : SandboxMessage R) : List (SandboxMessage R) :=
  if s.cut then s.toClient else s.toClient ++ [message]

def respond (call : ℕ) (result : R) : List (SandboxMessage R) :=
  if s.cut then s.toServer else s.toServer ++ [.response call result]

/-- `process.kill()`, and `join` -/
def killed : Worker := if s.worker.alive then .exited false else s.worker

/-- The exceptions that end the callback of a call leave it with an error. -/
def abandon : Sandbox T R := { s with callback := .none, controller := .resolved .error }

/-- `_stop_worker`, `_cancel_callbacks` and `_finish_callback_run` -/
def stop : Sandbox T R where
  __ := s
  server := .closed
  pipeClosed := true
  callbacksClosed := true
  callback := .none
  controller := match s.controller with
    | .waiting => .resolved .error
    | c => c

end Sandbox

/-! ## Steps -/

section Steps

variable {T R : Type}

/-- Steps of the worker. -/
inductive WorkerStep (s : Sandbox T R) : Sandbox T R → Prop
  | call (hworker : s.worker = .running) (hpipe : s.pipeClosed = false) (task : T) :
    WorkerStep s { s with
      worker := .waiting
      calls := s.calls ++ [task]
      toController := s.toController ++ [.call s.calls.length] }
  | receive {outcome : Outcome R} {rest : List (Outcome R)} (hworker : s.worker = .waiting)
    (hread : s.toWorker = outcome :: rest) :
    WorkerStep s { s with
      worker := .running
      received := s.received ++ [outcome]
      toWorker := rest }
  /-- The code may go on after the exception of a call. -/
  | eof (hworker : s.worker = .waiting) (hread : s.toWorker = []) (hpipe : s.pipeClosed) :
    WorkerStep s { s with worker := .running }
  | raise (hworker : s.worker = .running) :
    WorkerStep s { s with worker := .raised, hasRaised := true }
  | report (hworker : s.worker = .raised) (hpipe : s.pipeClosed = false) :
    WorkerStep s { s with worker := .reported, toController := s.toController ++ [.error] }
  /-- The error cannot be encoded, and its exception ends the process. -/
  | hide (hworker : s.worker = .raised) (hredact : s.redactErrors = false)
    (hpipe : s.pipeClosed = false) :
    WorkerStep s { s with worker := .closing false, toController := s.toController ++ [.close] }
  | close (hworker : s.worker = .running ∨ s.worker = .reported) (hpipe : s.pipeClosed = false) :
    WorkerStep s { s with worker := .closing true, toController := s.toController ++ [.close] }
  /-- Nothing can be sent, which is ignored if errors are redacted. -/
  | closeFails (hworker : s.worker = .running ∨ s.worker = .raised ∨ s.worker = .reported) :
    WorkerStep s { s with worker := .exited s.redactErrors }
  | exit {clean : Bool} (hworker : s.worker = .closing clean) :
    WorkerStep s { s with worker := .exited clean }
  | crash (hworker : s.worker.alive) : WorkerStep s { s with worker := .exited false }

/-- Steps of the thread that reads the pipe, and the callbacks that are over before the request. -/
inductive ControllerStep (s : Sandbox T R) : Sandbox T R → Prop
  | read {call : ℕ} {rest : List Task} (hcontroller : s.controller = .reading)
    (hread : s.toController = .call call :: rest) (hclosed : s.callbacksClosed = false) :
    ControllerStep s { s with
      toController := rest
      controller := .waiting
      callback := .intent call }
  | readClosed {call : ℕ} {rest : List Task} (hcontroller : s.controller = .reading)
    (hread : s.toController = .call call :: rest) (hclosed : s.callbacksClosed) :
    ControllerStep s { s with toController := rest, controller := .resolved .error }
  | readError {rest : List Task} (hcontroller : s.controller = .reading)
    (hread : s.toController = .error :: rest) :
    ControllerStep s { s with toController := rest, controller := .failed }
  | readClose {rest : List Task} (hcontroller : s.controller = .reading)
    (hread : s.toController = .close :: rest) :
    ControllerStep s { s with toController := rest, controller := .returned true }
  | eof (hcontroller : s.controller = .reading) (hread : s.toController = [])
    (hworker : s.worker.alive = false) : ControllerStep s { s with controller := .returned false }
  | readFails (hcontroller : s.controller = .reading) :
    ControllerStep s { s with controller := .failed }
  | send {outcome : Outcome R} (hcontroller : s.controller = .resolved outcome)
    (hpipe : s.pipeClosed = false) :
    ControllerStep s { s with controller := .reading, toWorker := s.toWorker ++ [outcome] }
  /-- The result cannot be encoded. -/
  | sendError {outcome : Outcome R} (hcontroller : s.controller = .resolved outcome)
    (hpipe : s.pipeClosed = false) :
    ControllerStep s { s with controller := .reading, toWorker := s.toWorker ++ [.error] }
  | sendFails {outcome : Outcome R} (hcontroller : s.controller = .resolved outcome) :
    ControllerStep s { s with controller := .failed }

/-- Steps of the callback of a call. -/
inductive CallbackStep (s : Sandbox T R) : Sandbox T R → Prop
  | schedule {call : ℕ} (hcallback : s.callback = .intent call) :
    CallbackStep s { s with callback := .scheduled call }
  | request {call : ℕ} (hcallback : s.callback = .scheduled call) :
    CallbackStep s { s with callback := .requested call, toClient := s.write (.request call) }
  /-- The request cannot be encoded, or not be written. -/
  | requestFails {call : ℕ} (hcallback : s.callback = .scheduled call) : CallbackStep s s.abandon
  | respond {call call' : ℕ} {result : R} {rest : List (SandboxMessage R)}
    (hcallback : s.callback = .requested call)
    (hread : s.toServer = .response call' result :: rest) :
    CallbackStep s { s with
      toServer := rest
      callback := .none
      controller := .resolved (.result call' result) }
  | unexpected {call : ℕ} {message : SandboxMessage R} {rest : List (SandboxMessage R)}
    (hcallback : s.callback = .requested call) (hread : s.toServer = message :: rest)
    (hmessage : ∀ call' result, message ≠ .response call' result) :
    CallbackStep s { s.abandon with toServer := rest, unexpectedResponse := true }
  /-- `IncompleteReadError`: the worker is killed, and the session cancelled. What the callback
      returns is not read by the worker any more. -/
  | disconnect {call : ℕ} (hcallback : s.callback = .requested call) (hread : s.toServer = [])
    (hclient : s.cut ∨ s.client.ended) :
    CallbackStep s { s.abandon with
      worker := s.killed
      server := if s.server = .awaiting then .stopping else s.server
      pipeClosed := true }

/-- Steps of the session. -/
inductive ServerStep (s : Sandbox T R) : Sandbox T R → Prop
  | accept {rest : List (SandboxMessage R)} (hserver : s.server = .handshake)
    (hread : s.toServer = .run :: rest) :
    ServerStep s { s with
      server := .awaiting
      worker := .running
      controller := .reading
      toServer := rest }
  | startFails {rest : List (SandboxMessage R)} (hserver : s.server = .handshake)
    (hread : s.toServer = .run :: rest) :
    ServerStep s { s with server := .failing, toServer := rest }
  /-- The concurrency limit is reached. -/
  | refuse {rest : List (SandboxMessage R)} (hserver : s.server = .handshake)
    (hread : s.toServer = .run :: rest) :
    ServerStep s { s with server := .closed, toServer := rest, toClient := s.write .error }
  | reject (hserver : s.server = .handshake) : ServerStep s { s with server := .closed }
  /-- The worker has not made a call for too long. -/
  | timeout (hserver : s.server = .awaiting ∨ s.server = .failing) :
    ServerStep s { s with timedOut := true, worker := s.killed }
  | returned (hserver : s.server = .awaiting) (hcontroller : s.controller = .returned true)
    (htimed : s.timedOut = false) :
    ServerStep s { s with server := .joining, pipeClosed := true }
  | unclean {clean : Bool} (hserver : s.server = .awaiting)
    (hcontroller : s.controller = .failed ∨
      s.controller = .returned clean ∧ (clean = false ∨ s.timedOut)) :
    ServerStep s { s with server := .failing, pipeClosed := true }
  /-- The runtime of the session is over. -/
  | expire (hserver : s.server = .awaiting) :
    ServerStep s { s with server := .failing, pipeClosed := true }
  | done (hserver : s.server = .joining) (hworker : s.worker = .exited true) :
    ServerStep s { s with server := .stopping, toClient := s.write .done }
  | joinFails (hserver : s.server = .joining) : ServerStep s { s with server := .failing }
  | kill (hserver : s.server = .failing ∨ s.server = .stopping) :
    ServerStep s { s with worker := s.killed }
  | fail (hserver : s.server = .failing) (hworker : s.worker.alive = false) :
    ServerStep s { s with server := .stopping, pipeClosed := true, toClient := s.write .error }
  | cancel (hserver : s.server = .awaiting ∨ s.server = .joining ∨ s.server = .failing) :
    ServerStep s { s with server := .stopping, pipeClosed := true }
  | stop (hserver : s.server = .stopping) (hworker : s.worker.alive = false) : ServerStep s s.stop

/-- Where the client is after a message that it reads. -/
def Client.read {R : Type} : SandboxMessage R → Client
  | .done => .returned
  | .error => .failed .agentError
  | .request call => .callback call
  | _ => .failed .unexpectedMessage

/-- How a callback ends with a message that comes during it. -/
def Failure.interrupt {R : Type} : SandboxMessage R → Failure
  | .error => .agentError
  | _ => .unexpectedMessageDuringCallback

/-- Steps of the client. -/
inductive ClientStep (s : Sandbox T R) : Sandbox T R → Prop
  | read {message : SandboxMessage R} {rest : List (SandboxMessage R)}
    (hclient : s.client = .reading) (hread : s.toClient = message :: rest) :
    ClientStep s { s with client := .read message, toClient := rest }
  | interrupt {call : ℕ} {message : SandboxMessage R} {rest : List (SandboxMessage R)}
    (hclient : s.client = .callback call) (hread : s.toClient = message :: rest) :
    ClientStep s { s with client := .failed (.interrupt message), toClient := rest }
  | answer {call : ℕ} (hclient : s.client = .callback call) (result : R) :
    ClientStep s { s with
      client := .reading
      answered := s.answered ++ [(call, result)]
      toServer := s.respond call result }
  | eof (hclient : s.client.ended = false) (hread : s.toClient = [])
    (hserver : s.cut ∨ s.server = .closed) :
    ClientStep s { s with client := .failed .disconnected }
  /-- A cancellation, the time of the run, or what cannot be read or written. -/
  | fail (hclient : s.client.ended = false) : ClientStep s { s with client := .failed .other }

/-- The stream is cut, and loses messages. -/
inductive StreamStep (s : Sandbox T R) : Sandbox T R → Prop
  | cut : StreamStep s { s with cut := true }
  | lose (hcut : s.cut) (i j : ℕ) :
    StreamStep s { s with toClient := s.toClient.take i, toServer := s.toServer.take j }

inductive SandboxStep (s t : Sandbox T R) : Prop
  | worker (h : WorkerStep s t)
  | controller (h : ControllerStep s t)
  | callback (h : CallbackStep s t)
  | server (h : ServerStep s t)
  | client (h : ClientStep s t)
  | stream (h : StreamStep s t)

end Steps

/-- A session, which the client begins by sending what to run. -/
def sandbox (T R : Type) (redactErrors : Bool) : System (Sandbox T R) Unit where
  init s := s = { redactErrors }
  step s _ t := SandboxStep s t

end Hyperforge.Codemode.Session
