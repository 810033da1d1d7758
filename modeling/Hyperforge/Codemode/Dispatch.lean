import Hyperforge.Codemode.Sanitizer
import Hyperforge.Codemode.Strict
import Hyperforge.Library.Coroutines

/-!
# The dispatch of nested calls

The tasks of a worker are dispatched by coroutines that share the state of the execution
(`_execute_scoped_codemode`): the first violation of a policy is latched, and is raised again by
everything that comes after it. The call of a capability is reported by the event `TOOL_REQUESTED`
before it, and by `TOOL_COMPLETED` or `TOOL_FAILED` after it.

* `nested_events`: once a request has been emitted, its dispatch attempts exactly one of these
  before it is over, and attempts `TOOL_COMPLETED` only with a result that is within the limits and
  is returned next, unless the emission of the event raises.

Any await may raise, of a cancellation too. What emits the events, the capabilities, their adapters
and the check of the usage are anything that returns or raises. The duration of a call and the
markers that are the same for all the events of an execution are left out.
-/

namespace Hyperforge.Codemode.Dispatch

open Json hiding Tree
open Protocol
open Sanitizer hiding total

/-! ## Exceptions -/

/-- The exceptions that the code tells apart; `baseException` is one that is no `Exception`. -/
inductive Exc
  | cancelledError
  | capabilityEventFailure
  | usageLimitExceeded (message : Str)
  | typeError (message : Str)
  | valueError (message : Str)
  | runtimeError (message : Str)
  | unicodeEncodeError
  | exception (name : String)
  | baseException (name : String)
  deriving DecidableEq

namespace Exc

/-- `type(exc).__name__` -/
def className : Exc → String
  | cancelledError => "CancelledError"
  | capabilityEventFailure => "_CapabilityEventFailure"
  | usageLimitExceeded _ => "UsageLimitExceeded"
  | typeError _ => "TypeError"
  | valueError _ => "ValueError"
  | runtimeError _ => "RuntimeError"
  | unicodeEncodeError => "UnicodeEncodeError"
  | exception name | baseException name => name

/-- `isinstance(exc, Exception)` -/
def IsException : Exc → Bool
  | cancelledError | baseException _ => false
  | _ => true

/-- `exception_type(message)`, where an `UnicodeEncodeError` is not made of a message. -/
def rebuilt : Exc → Exc
  | unicodeEncodeError => typeError (.ofString "function takes exactly 5 arguments (1 given)")
  | e => e

def ofPyError : PyError → Exc
  | .typeError message => typeError (.ofString message)
  | .valueError message => valueError (.ofString message)

end Exc

/-- What returns or raises. -/
abbrev Outcome (α : Type) := Except Exc α

/-! ## What an execution is given -/

structure RestrictedPythonTask (F : Type) where
  function : Str
  agent : Str
  args : List (Value F)
  keywordArgs : List (Str × Value F)

/-- A tool, with the names of the properties of its parameters. -/
structure Capability where
  name : String
  properties : List Str

structure CodeModeLimits where
  maxResultBytes : ℕ
  maxCumulativeResultBytes : ℕ
  maxOutputBytes : ℕ
  maxNestedCalls : ℕ
  pos : 0 < maxResultBytes ∧ 0 < maxOutputBytes ∧ 0 < maxNestedCalls
  le : maxResultBytes ≤ maxCumulativeResultBytes

/-- What does not change in an execution. `eventContext` is what `_nested_event_context` does, of
    the markers that every event has. -/
structure Setting (F : Type) where
  φ : FloatFormat F
  π : Pydantic F
  casefold : Str → Str
  repr : Str → Str
  capabilities : List Capability
  limits : CodeModeLimits
  remoteRequired : Bool
  eventContext : Outcome Unit

/-! ## The events -/

/-- The arguments of a call, as they are reported. -/
inductive Arguments (F : Type)
  | invalid
  | report (r : Report F)

inductive EventType
  | toolRequested
  | toolCompleted
  | toolFailed
  deriving DecidableEq

inductive Event (F : Type)
  | requested (id : Str) (name : String) (arguments : Arguments F)
  | completed (callId : Str) (tool : String) (result : Report F) (resultBytes : ℕ)
  | failed (callId : Str) (tool : String) (error : String)

namespace Event

variable {F : Type}

def type : Event F → EventType
  | requested .. => .toolRequested
  | completed .. => .toolCompleted
  | failed .. => .toolFailed

def callId : Event F → Str
  | requested id .. | completed id .. | failed id .. => id

end Event

/-- What a dispatch does: the task it is given, the check of the usage, the events that it attempts
    to emit and those that have been emitted, the emissions that raise, whether of its own events or
    of the tool's, and the results that are normalized and encoded. -/
inductive Entry (F : Type)
  | dispatched (task : RestrictedPythonTask F)
  | checked (r : Outcome Unit)
  | attempted (e : Event F)
  | emitted (type : EventType) (callId : Str)
  | notEmitted
  | normalized (r : Outcome (Json.Tree F × ℕ))
  | encoded (r : Outcome ℕ)

/-! ## The state -/

/-- What the dispatches share: the latch (`_InvocationState`), the output (`_OutputState`), the
    counters, the usage of the harness, and how the execution itself ends. -/
structure Shared (F : Type) where
  violation : Option Exc
  attempts : ℕ := 0
  called : Bool := false
  value : Json.Tree F := .null
  nestedCalls : ℕ := 0
  cumulativeResultBytes : ℕ := 0
  toolCalls : ℕ
  started : Bool := false
  outcome : Option (Outcome (Json.Tree F)) := none

namespace Shared

variable {F : Type} (s : Shared F)

def latch (e : Exc) : Shared F := { s with violation := s.violation <|> some e }

def raiseIfFailed : Outcome Unit :=
  match s.violation with
  | some e => .error e.rebuilt
  | none => .ok ()

/-- `fail`, with the exception that it raises. -/
def fail (e : Exc) : Shared F × Exc := (s.latch e, ((s.violation <|> some e).getD e).rebuilt)

end Shared

structure Call (F : Type) where
  id : Str
  capability : Capability
  task : RestrictedPythonTask F

/-- What a dispatch awaits, or how it has ended: with the result of a call and its size, if it is
    the one of a call. -/
inductive Phase (F : Type)
  | requesting (call : Call F)
  | executing (call : Call F)
  | projecting (call : Call F)
  | completing (call : Call F) (normalized : Json.Tree F) (resultBytes : ℕ)
  | failing (call : Call F) (exc : Exc)
  | finished (call : Option (Call F)) (result : Outcome (Option (Json.Tree F × ℕ)))

def Phase.call {F : Type} : Phase F → Option (Call F)
  | requesting call | executing call | projecting call | completing call _ _ | failing call _ =>
    some call
  | finished call _ => call

/-- What the adapter of a capability does with an output. -/
inductive Adapted (F : Type)
  | raises (e : Exc)
  | value (v : Value F)
  | awaitable

/-- What is awaited: the emission of an event, the execution of a tool, with what its adapter does
    then, and what the adapter returns. Besides, the context of a tool may fail to emit. -/
inductive Input (F : Type)
  | emission (r : Outcome Unit)
  | executed (r : Outcome (Adapted F))
  | projected (r : Outcome (Value F))
  | toolEventFailure

/-- A dispatch: its task, what `_check_limit` does and the identifier that is drawn. -/
structure Argument (F : Type) where
  task : RestrictedPythonTask F
  checkLimit : ℕ → Outcome Unit
  id : Str

/-- The steps of the execution itself: the runner starts, and ends; and what others add to the
    usage. -/
inductive Other
  | start
  | finish (r : Outcome Unit)
  | usage (toolCalls : ℕ)

abbrev Move (F : Type) := Shared F × Phase F × List (Entry F)

/-! ## The code -/

section Code

variable {F : Type}

/-- `output(value)` -/
def outputFunctionName : Str := .ofString "output"

/-- `_output_value` -/
def outputValue (task : RestrictedPythonTask F) : Outcome (Value F) :=
  if !task.args.isEmpty && !task.keywordArgs.isEmpty then
    .error (.valueError (.ofString "output accepts either a positional or keyword value"))
  else if 1 < task.args.length then .error (.valueError (.ofString "output accepts one value"))
  else if task.keywordArgs.any (·.1 ≠ .ofString "value") then
    .error (.valueError (.ofString "output accepts only the 'value' keyword"))
  else match task.args, get task.keywordArgs (.ofString "value") with
    | x :: _, _ | [], some x => .ok x
    | [], none => .error (.valueError (.ofString "output requires a value"))

variable (S : Setting F)

/-- `_normalize_worker_value` -/
def normalize (v : Value F) (maxBytes : ℕ) (label : String) : Outcome (Json.Tree F × ℕ) :=
  (normalizeWorkerValue S.φ S.π v maxBytes label).mapError .ofPyError

/-- The value of a task for the output. -/
def normalizedOutput (task : RestrictedPythonTask F) : Outcome (Json.Tree F) := do
  let v ← outputValue task
  let (n, _) ← normalize S v S.limits.maxOutputBytes "Code Mode output"
  .ok n

/-- `_OutputState.record` -/
def record (s : Shared F) (task : RestrictedPythonTask F) : Shared F × Outcome (Json.Tree F) :=
  let s := { s with attempts := s.attempts + 1 }
  match s.raiseIfFailed with
  | .error e => (s, .error e)
  | .ok () =>
    if 1 < s.attempts then
      let e := .valueError (.ofString "output(value) may only be called once")
      (s.latch e, .error e)
    else match normalizedOutput S task with
      | .error e => (s.latch e, .error e)
      | .ok n => ({ s with called := true }, .ok n)

/-- `capability_map.get`: of capabilities of the same name, the last one. -/
def Setting.capability (function : Str) : Option Capability :=
  S.capabilities.reverse.find? (.ofString ·.name = function)

/-- `_scoped_tool_arguments`. Of the arguments that are given twice, the error may name any one. -/
def scopedToolArguments (c : Capability) (task : RestrictedPythonTask F) :
    Outcome (List (Str × Value F)) :=
  if task.args.isEmpty then .ok task.keywordArgs
  else if c.properties.length < task.args.length then
    .error (.valueError (.ofString ("Too many positional arguments for " ++ c.name)))
  else
    let arguments := c.properties.zip task.args
    match arguments.find? fun a => a.1 ∈ task.keywordArgs.map Prod.fst with
    | some a => .error (.valueError (.ofString "Multiple values for argument " ++ S.repr a.1))
    | none => .ok (arguments ++ task.keywordArgs)

/-- `_sanitize_task_arguments` -/
def sanitizeTaskArguments (c : Capability) (task : RestrictedPythonTask F) :
    Outcome (Arguments F) :=
  match scopedToolArguments S c task with
  | .error _ => .ok .invalid
  | .ok arguments =>
    match sanitizeEventValue S.φ S.casefold (strDict arguments) with
    | some r => .ok (.report r)
    | none => .error .unicodeEncodeError

/-- The preflight of the transport of a result. -/
def encodeTransport (c : Capability) (n : Json.Tree F) : Outcome ByteArray :=
  let label := "Code Mode result transport from " ++ c.name
  (if S.remoteRequired then
    encodeSandboxMessage S.φ S.π maxPacketBytes (.response (.ofTree n)) label
  else encodeProtocolValue S.φ S.π maxPacketBytes false (.ofTree n) label).mapError .ofPyError

/-- `emit_nested`, after `harness.emit`. -/
def emitNested (s : Shared F) : Outcome Unit → Shared F × Outcome Unit × List (Entry F)
  | .ok () => (s, .ok (), [])
  | .error e =>
    if e.IsException then
      (s.latch .capabilityEventFailure, .error .capabilityEventFailure, [.notEmitted])
    else (s, .error e, [])

/-! ### A dispatch -/

/-- The exception that a dispatch raises when the call has failed. -/
def callFailed (c : Capability) : Exc → Exc
  | .cancelledError => .cancelledError
  | .capabilityEventFailure => .runtimeError (.ofString "Code Mode capability failed")
  | e => .runtimeError (.ofString "Code Mode capability " ++ S.repr (.ofString c.name) ++
      .ofString (" failed (" ++ e.className ++ ")"))

/-- `except BaseException`: the failure is reported first. -/
def handle (s : Shared F) (c : Call F) (e : Exc) (log : List (Entry F)) : Move F :=
  (s, .failing c e, log ++ [.attempted (.failed c.id c.capability.name e.className)])

def cumulativeLimitExceeded (projected : ℕ) : Exc :=
  .runtimeError (.ofString ("Code Mode cumulative result limit exceeded: " ++ toString projected ++
    " > " ++ toString S.limits.maxCumulativeResultBytes ++ " bytes"))

/-- What is left to do with the result of an adapter. -/
def deliver (s : Shared F) (c : Call F) (v : Value F) : Move F :=
  match normalize S v S.limits.maxResultBytes ("Code Mode result from " ++ c.capability.name) with
  | .error e => handle (s.latch e) c e [.normalized (.error e)]
  | .ok (n, resultBytes) =>
    match encodeTransport S c.capability n with
    | .error e => handle (s.latch e) c e [.normalized (.ok (n, resultBytes)), .encoded (.error e)]
    | .ok _ =>
      let log := [.normalized (.ok (n, resultBytes)), .encoded (.ok resultBytes)]
      let projected := s.cumulativeResultBytes + resultBytes
      if S.limits.maxCumulativeResultBytes < projected then
        let e := cumulativeLimitExceeded S projected
        handle (s.latch e) c e log
      else
        let s := { s with cumulativeResultBytes := projected }
        match sanitizeEventValue S.φ S.casefold (.ofTree n) with
        | none => handle s c .unicodeEncodeError log
        | some report => (s, .completing c n resultBytes,
            log ++ [.attempted (.completed c.id c.capability.name report resultBytes)])

def nestedLimitExceeded (calls : ℕ) : Exc :=
  .runtimeError (.ofString ("Code Mode nested call limit exceeded: " ++ toString calls ++ " > " ++
    toString S.limits.maxNestedCalls))

def unknownCapability (function : Str) : Exc :=
  .valueError (.ofString "Unknown Code Mode capability: " ++ function)

/-- What `fail` does in a dispatch. -/
def refuse (s : Shared F) (e : Exc) (log : List (Entry F)) : Move F :=
  ((s.fail e).1, .finished none (.error (s.fail e).2), log)

/-- The violation of a check of the usage that raises, if it is one. -/
def policyViolation : Exc → Option Exc
  | .usageLimitExceeded message => some (.usageLimitExceeded message)
  | e => if e.IsException then some (.runtimeError (.ofString "Code Mode policy check failed"))
    else none

/-- A call that has been counted, up to its request. -/
def request (s : Shared F) (c : Capability) (a : Argument F) : Move F :=
  match a.checkLimit s.toolCalls with
  | .error e =>
    match policyViolation e with
    | some v => refuse s v [.dispatched a.task, .checked (.error e)]
    | none => (s, .finished none (.error e), [.dispatched a.task, .checked (.error e)])
  | .ok () =>
    match sanitizeTaskArguments S c a.task with
    | .error e => (s, .finished none (.error e), [.dispatched a.task, .checked (.ok ())])
    | .ok arguments => (s, .requesting { id := a.id, capability := c, task := a.task },
        [.dispatched a.task, .checked (.ok ()), .attempted (.requested a.id c.name arguments)])

/-- `dispatch`, up to its first await. -/
def dispatch (s : Shared F) (a : Argument F) : Move F :=
  if a.task.function = outputFunctionName then
    match record S s a.task with
    | (s, .ok n) => ({ s with value := n }, .finished none (.ok none), [.dispatched a.task])
    | (s, .error e) => (s, .finished none (.error e), [.dispatched a.task])
  else match s.raiseIfFailed with
    | .error e => (s, .finished none (.error e), [.dispatched a.task])
    | .ok () =>
      match S.capability a.task.function with
      | none => refuse s (unknownCapability a.task.function) [.dispatched a.task]
      | some c =>
        if S.limits.maxNestedCalls ≤ s.nestedCalls then
          refuse s (nestedLimitExceeded S (s.nestedCalls + 1)) [.dispatched a.task]
        else
          request S { s with nestedCalls := s.nestedCalls + 1, toolCalls := s.toolCalls + 1 } c a

/-- A dispatch, from an await to the next one. -/
def resume (s : Shared F) : Phase F → Input F → Option (Move F)
  | .requesting c, .emission r =>
    match emitNested s r with
    | (s, .error e, log) => some (s, .finished (some c) (.error e), log)
    | (s, .ok (), log) =>
      match scopedToolArguments S c.capability c.task with
      | .error e => some (handle s c e (log ++ [.emitted .toolRequested c.id]))
      | .ok _ => some (s, .executing c, log ++ [.emitted .toolRequested c.id])
  | .executing c, .executed (.error e) => some (handle s c e [])
  | .executing c, .executed (.ok adapted) =>
    match s.raiseIfFailed, adapted with
    | .error e, _ | .ok (), .raises e => some (handle s c e [])
    | .ok (), .value v => some (deliver S s c v)
    | .ok (), .awaitable => some (s, .projecting c, [])
  | .projecting c, .projected (.error e) => some (handle s c e [])
  | .projecting c, .projected (.ok v) => some (deliver S s c v)
  | .completing c n resultBytes, .emission r =>
    match emitNested s r with
    | (s, .error e, log) => some (s, .finished (some c) (.error e), log)
    | (s, .ok (), log) => some (s, .finished (some c) (.ok (some (n, resultBytes))),
        log ++ [.emitted .toolCompleted c.id])
  | .failing c exc, .emission r =>
    match emitNested s r with
    | (s, .error e, log) => some (s, .finished (some c) (.error e), log)
    | (s, .ok (), log) => some (s, .finished (some c) (.error (callFailed S c.capability exc)),
        log ++ [.emitted .toolFailed c.id])
  | p, .toolEventFailure =>
    if p.call.isSome then some (s.latch .capabilityEventFailure, p, [.notEmitted]) else none
  | _, _ => none

/-! ### The execution -/

/-- How the execution ends, after its runner. -/
def conclude (s : Shared F) : Outcome Unit → Outcome (Json.Tree F)
  | .error e => .error e
  | .ok () =>
    match s.raiseIfFailed with
    | .error e => .error e
    | .ok () =>
      if s.called then .ok s.value
      else .error (.valueError (.ofString "Code Mode must call output(value) exactly once"))

def other (s : Shared F) : Other → Option (Shared F)
  | .start =>
    if s.started || s.outcome.isSome then none
    else match s.raiseIfFailed with
      | .error e => some { s with outcome := some (.error e) }
      | .ok () => some { s with started := true }
  | .finish r =>
    if s.started && s.outcome.isNone then some { s with outcome := some (conclude s r) } else none
  | .usage toolCalls => some { s with toolCalls }

/-- The dispatches of an execution, which begin once its runner has been started. -/
def program : Coroutines.Program (Shared F) (Argument F) (Phase F) (Input F) Other (Entry F) where
  start s a := if s.started then some (dispatch S s a) else none
  resume := resume S
  other := other

/-- The shared state at first, with the calls that the usage has. -/
def initial (toolCalls : ℕ) : Shared F where
  violation := match S.eventContext with
    | .error e => some e
    | .ok () => none
  toolCalls

def system (toolCalls : ℕ) := (program S).system (initial S toolCalls)

end Code

/-! ## The events of a dispatch -/

section Events

variable {F : Type} {S : Setting F}

/-- The events, attempted and emitted. -/
def Entry.IsEvent : Entry F → Bool
  | attempted _ | emitted _ _ => true
  | _ => false

def events (log : List (Entry F)) : List (Entry F) := log.filter Entry.IsEvent

@[simp]
theorem events_append (log log' : List (Entry F)) :
    events (log ++ log') = events log ++ events log' := List.filter_append ..

variable (S) in
/-- The result of a call, normalized and reported within all the limits. -/
structure Within (c : Call F) (n : Json.Tree F) (resultBytes : ℕ) (report : Report F) : Prop where
  normalized : ∃ v, normalize S v S.limits.maxResultBytes
    ("Code Mode result from " ++ c.capability.name) = .ok (n, resultBytes)
  encoded : (encodeTransport S c.capability n).isOk
  report : sanitizeEventValue S.φ S.casefold (.ofTree n) = some report

/-- The request of a call, and its emission. -/
def requested (c : Call F) (arguments : Arguments F) : List (Entry F) :=
  [.attempted (.requested c.id c.capability.name arguments), .emitted .toolRequested c.id]

def completion (c : Call F) (report : Report F) (resultBytes : ℕ) : Entry F :=
  .attempted (.completed c.id c.capability.name report resultBytes)

def failure (c : Call F) (e : Exc) : Entry F :=
  .attempted (.failed c.id c.capability.name e.className)

variable (S) in
/-- The events of a dispatch in a phase. -/
inductive Traced : Phase F → List (Entry F) → Prop
  | requesting (c : Call F) (arguments : Arguments F) :
    Traced (.requesting c) [.attempted (.requested c.id c.capability.name arguments)]
  | executing (c : Call F) (arguments : Arguments F) :
    Traced (.executing c) (requested c arguments)
  | projecting (c : Call F) (arguments : Arguments F) :
    Traced (.projecting c) (requested c arguments)
  | completing {c : Call F} (arguments : Arguments F) {n : Json.Tree F} {resultBytes : ℕ}
    {report : Report F} (h : Within S c n resultBytes report) :
    Traced (.completing c n resultBytes)
      (requested c arguments ++ [completion c report resultBytes])
  | failing (c : Call F) (arguments : Arguments F) (e : Exc) :
    Traced (.failing c e) (requested c arguments ++ [failure c e])
  | refused (r : Outcome (Option (Json.Tree F × ℕ))) (h : ∀ x, r = .ok x → x = none) :
    Traced (.finished none r) []
  | unrequested (c : Call F) (arguments : Arguments F) (e : Exc) :
    Traced (.finished (some c) (.error e))
      [.attempted (.requested c.id c.capability.name arguments)]
  | uncompleted {c : Call F} (arguments : Arguments F) {n : Json.Tree F} {resultBytes : ℕ}
    {report : Report F} (h : Within S c n resultBytes report) (e : Exc) :
    Traced (.finished (some c) (.error e))
      (requested c arguments ++ [completion c report resultBytes])
  | unreported (c : Call F) (arguments : Arguments F) (e e' : Exc) :
    Traced (.finished (some c) (.error e)) (requested c arguments ++ [failure c e'])
  | completed {c : Call F} (arguments : Arguments F) {n : Json.Tree F} {resultBytes : ℕ}
    {report : Report F} (h : Within S c n resultBytes report) :
    Traced (.finished (some c) (.ok (some (n, resultBytes))))
      (requested c arguments ++ [completion c report resultBytes, .emitted .toolCompleted c.id])
  | failed (c : Call F) (arguments : Arguments F) (e e' : Exc) :
    Traced (.finished (some c) (.error e))
      (requested c arguments ++ [failure c e', .emitted .toolFailed c.id])

theorem traced_refuse (s : Shared F) (e : Exc) {log : List (Entry F)} (h : events log = []) :
    Traced S (refuse s e log).2.1 (events (refuse s e log).2.2) := by
  rw [refuse, h]
  exact .refused _ nofun

theorem traced_dispatch (s : Shared F) (a : Argument F) :
    Traced S (dispatch S s a).2.1 (events (dispatch S s a).2.2) := by
  rw [dispatch]
  split
  · split
    · exact .refused _ fun x hx => (Except.ok.inj hx).symm
    · exact .refused _ nofun
  split
  · exact .refused _ nofun
  split
  · exact traced_refuse _ _ rfl
  split
  · exact traced_refuse _ _ rfl
  rw [request]
  split
  · split
    · exact traced_refuse _ _ rfl
    · exact .refused _ nofun
  · split
    · exact .refused _ nofun
    · exact .requesting { id := a.id, capability := _, task := a.task } _

/-- What is left of a call that fails. -/
theorem traced_handle (s : Shared F) {c : Call F} (e : Exc) {arguments : Arguments F}
    {es log : List (Entry F)} (h : es ++ events log = requested c arguments) :
    Traced S (handle s c e log).2.1 (es ++ events (handle s c e log).2.2) := by
  rw [handle, events_append, ← List.append_assoc, h]
  exact .failing c arguments e

theorem traced_deliver (s : Shared F) (c : Call F) (v : Value F) (arguments : Arguments F) :
    Traced S (deliver S s c v).2.1 (requested c arguments ++ events (deliver S s c v).2.2) := by
  have hlog : ∀ log, events log = [] → requested c arguments ++ events log =
      requested c arguments := by
    intro log hlog
    rw [hlog, List.append_nil]
  rw [deliver]
  split
  · exact traced_handle _ _ (hlog _ rfl)
  next n resultBytes hn =>
    split
    · exact traced_handle _ _ (hlog _ rfl)
    next hencoded =>
      dsimp only
      split
      · exact traced_handle _ _ (hlog _ rfl)
      · split
        · exact traced_handle _ _ (hlog _ rfl)
        next report hreport =>
          rw [events_append, ← List.append_assoc, hlog _ rfl]
          exact .completing arguments ⟨⟨v, hn⟩, by rw [hencoded]; rfl, hreport⟩

/-- What an emission that raises leaves. -/
def Unsent (s s' : Shared F) (log : List (Entry F)) : Prop :=
  s' = s ∧ log = [] ∨ s' = s.latch .capabilityEventFailure ∧ log = [.notEmitted]

theorem Unsent.events {s s' : Shared F} {log : List (Entry F)} (h : Unsent s s' log) :
    events log = [] := by
  obtain ⟨-, rfl⟩ | ⟨-, rfl⟩ := h <;> rfl

theorem emitNested_cases (s : Shared F) (r : Outcome Unit) :
    (∃ s' e log, emitNested s r = (s', .error e, log) ∧ Unsent s s' log) ∨
      emitNested s r = (s, .ok (), []) := by
  rw [emitNested.eq_def]
  split
  · exact .inr rfl
  · split
    · exact .inl ⟨_, _, _, rfl, .inr ⟨rfl, rfl⟩⟩
    · exact .inl ⟨_, _, _, rfl, .inl ⟨rfl, rfl⟩⟩

theorem traced_resume (s : Shared F) {p : Phase F} {i : Input F} {m : Move F} {es : List (Entry F)}
    (hp : Traced S p es) (h : resume S s p i = some m) : Traced S m.2.1 (es ++ events m.2.2) := by
  rw [resume.eq_def] at h
  split at h
  next c r =>
    cases hp with
    | requesting _ arguments =>
    obtain ⟨s', e, log, hr, hlog⟩ | hr := emitNested_cases s r
    · rw [hr] at h
      cases h
      rw [hlog.events, List.append_nil]
      exact .unrequested c arguments e
    · rw [hr] at h
      dsimp only at h
      split at h
      · cases h
        exact traced_handle _ _ rfl
      · cases h
        exact .executing c arguments
  next c e =>
    cases h
    cases hp with
    | executing _ arguments => exact traced_handle _ _ (List.append_nil _)
  next c adapted =>
    cases hp with
    | executing _ arguments =>
    split at h
    · cases h
      exact traced_handle _ _ (List.append_nil _)
    · cases h
      exact traced_handle _ _ (List.append_nil _)
    · cases h
      exact traced_deliver s c _ arguments
    · cases h
      exact .projecting c arguments
  next c e =>
    cases h
    cases hp with
    | projecting _ arguments => exact traced_handle _ _ (List.append_nil _)
  next c v =>
    cases h
    cases hp with
    | projecting _ arguments => exact traced_deliver s c v arguments
  next c n resultBytes r =>
    cases hp with
    | completing arguments hw =>
    obtain ⟨s', e, log, hr, hlog⟩ | hr := emitNested_cases s r
    · rw [hr] at h
      cases h
      rw [hlog.events, List.append_nil]
      exact .uncompleted arguments hw e
    · rw [hr] at h
      cases h
      exact .completed arguments hw
  next c exc r =>
    cases hp with
    | failing _ arguments =>
    obtain ⟨s', e, log, hr, hlog⟩ | hr := emitNested_cases s r
    · rw [hr] at h
      cases h
      rw [hlog.events, List.append_nil]
      exact .unreported c arguments e exc
    · rw [hr] at h
      cases h
      exact .failed c arguments _ exc
  next =>
    -- a failure of the tool's own events
    split at h
    · cases h
      exact (List.append_nil es).symm ▸ hp
    · cases h
  next => cases h

theorem traced {toolCalls : ℕ} {s : Coroutines.State (Shared F) (Phase F) (Entry F)}
    (hr : (system S toolCalls).Reachable s) {d : ℕ} {p : Phase F} (hp : s.phases[d]? = some p) :
    Traced S p (events (s.log d)) := by
  refine Coroutines.Program.each (I := fun p log => Traced S p (events log)) hr ?_ ?_ hp
  · intro u a m h
    simp only [program] at h
    split at h
    · cases h
      exact traced_dispatch u a
    · cases h
  · intro u p i m es hp h
    rw [events_append]
    exact traced_resume u hp h

end Events

/-! ## The limits -/

section Limits

open Coroutines (total)

variable {F : Type} {S : Setting F}

/-- The size of a result that is returned, or is about to be. -/
def Phase.resultBytes : Phase F → ℕ
  | completing _ _ resultBytes | finished _ (.ok (some (_, resultBytes))) => resultBytes
  | _ => 0

def Phase.calls (p : Phase F) : ℕ := if p.call.isSome then 1 else 0

/-- What a move leaves of the counters: a result that it makes has been added to the size of all of
    them, and a call to their number. -/
structure Counts (S : Setting F) (s : Shared F) (resultBytes calls : ℕ) (m : Move F) : Prop where
  bytes : m.2.1.resultBytes + s.cumulativeResultBytes ≤ resultBytes + m.1.cumulativeResultBytes
  bytes_le : s.cumulativeResultBytes ≤ S.limits.maxCumulativeResultBytes →
    m.1.cumulativeResultBytes ≤ S.limits.maxCumulativeResultBytes
  calls : m.2.1.calls + s.nestedCalls ≤ calls + m.1.nestedCalls
  calls_le : s.nestedCalls ≤ S.limits.maxNestedCalls → m.1.nestedCalls ≤ S.limits.maxNestedCalls

theorem counts_handle {s s' : Shared F} (c : Call F) (e : Exc) (log : List (Entry F))
    (hbytes : s'.cumulativeResultBytes = s.cumulativeResultBytes)
    (hcalls : s'.nestedCalls = s.nestedCalls) : Counts S s 0 1 (handle s' c e log) where
  bytes := by rw [handle, hbytes]; rfl
  bytes_le h := hbytes ▸ h
  calls := by rw [handle, hcalls]; rfl
  calls_le h := hcalls ▸ h

theorem counts_deliver (s : Shared F) (c : Call F) (v : Value F) :
    Counts S s 0 1 (deliver S s c v) := by
  rw [deliver]
  split
  · exact counts_handle _ _ _ rfl rfl
  split
  · exact counts_handle _ _ _ rfl rfl
  dsimp only
  split
  · exact counts_handle _ _ _ rfl rfl
  next hle =>
    split
    · exact ⟨by simp [handle, Phase.resultBytes], fun _ => not_lt.1 hle, le_rfl, id⟩
    · exact ⟨by simp [Phase.resultBytes, add_comm], fun _ => not_lt.1 hle, le_rfl, id⟩

theorem Unsent.counts {s s' : Shared F} {log : List (Entry F)} (h : Unsent s s' log) (c : Call F)
    (e : Exc) (resultBytes : ℕ) :
    Counts S s resultBytes 1 (s', .finished (some c) (.error e), log) := by
  obtain ⟨rfl, -⟩ | ⟨rfl, -⟩ := h
  · exact ⟨by simp [Phase.resultBytes], id, le_rfl, id⟩
  · exact ⟨by simp [Phase.resultBytes, Shared.latch], id, le_rfl, id⟩

theorem Counts.refl (s : Shared F) {p p' : Phase F} (log : List (Entry F))
    (hbytes : p'.resultBytes = p.resultBytes) (hcalls : p'.calls = p.calls) :
    Counts S s p.resultBytes p.calls (s, p', log) :=
  ⟨by rw [hbytes], id, by rw [hcalls], id⟩

theorem counts_resume {s : Shared F} {p : Phase F} {i : Input F} {m : Move F}
    (h : resume S s p i = some m) : Counts S s p.resultBytes p.calls m := by
  rw [resume.eq_def] at h
  split at h
  next c r =>
    obtain ⟨s', e, log, hr, hlog⟩ | hr := emitNested_cases s r
    · rw [hr] at h
      cases h
      exact hlog.counts c e 0
    · rw [hr] at h
      dsimp only at h
      split at h
      · cases h
        exact counts_handle _ _ _ rfl rfl
      · cases h
        exact .refl s (p := .executing c) _ rfl rfl
  next c e =>
    cases h
    exact counts_handle _ _ _ rfl rfl
  next c adapted =>
    split at h
    · cases h
      exact counts_handle _ _ _ rfl rfl
    · cases h
      exact counts_handle _ _ _ rfl rfl
    · cases h
      exact counts_deliver s c _
    · cases h
      exact .refl s (p := .projecting c) _ rfl rfl
  next c e =>
    cases h
    exact counts_handle _ _ _ rfl rfl
  next c v =>
    cases h
    exact counts_deliver s c v
  next c n resultBytes r =>
    obtain ⟨s', e, log, hr, hlog⟩ | hr := emitNested_cases s r
    · rw [hr] at h
      cases h
      exact hlog.counts c e resultBytes
    · rw [hr] at h
      cases h
      exact .refl s (p := .completing c n resultBytes) _ rfl rfl
  next c exc r =>
    obtain ⟨s', e, log, hr, hlog⟩ | hr := emitNested_cases s r
    · rw [hr] at h
      cases h
      exact hlog.counts c e 0
    · rw [hr] at h
      cases h
      exact .refl s (p := .failing c exc) _ rfl rfl
  next =>
    split at h
    · cases h
      exact ⟨le_rfl, id, le_rfl, id⟩
    · cases h
  next => cases h

/-- A dispatch that is refused. -/
theorem counts_refused {s s' : Shared F} (r : Outcome (Option (Json.Tree F × ℕ)))
    (log : List (Entry F)) (hr : ∀ x, r = .ok x → x = none)
    (hbytes : s'.cumulativeResultBytes = s.cumulativeResultBytes)
    (hcalls : s.nestedCalls ≤ s'.nestedCalls)
    (hle : s.nestedCalls ≤ S.limits.maxNestedCalls → s'.nestedCalls ≤ S.limits.maxNestedCalls) :
    Counts S s 0 0 (s', .finished none r, log) where
  bytes := by
    rw [hbytes]
    cases r with
    | error e => simp [Phase.resultBytes]
    | ok x =>
      rw [hr x rfl]
      simp [Phase.resultBytes]
  bytes_le h := hbytes ▸ h
  calls := by simpa [Phase.calls, Phase.call] using hcalls
  calls_le := hle

theorem counts_record (s : Shared F) (task : RestrictedPythonTask F) :
    (record S s task).1.cumulativeResultBytes = s.cumulativeResultBytes ∧
      (record S s task).1.nestedCalls = s.nestedCalls := by
  rw [record]
  split
  · exact ⟨rfl, rfl⟩
  split
  · exact ⟨rfl, rfl⟩
  split <;> exact ⟨rfl, rfl⟩

theorem counts_dispatch (s : Shared F) (a : Argument F) : Counts S s 0 0 (dispatch S s a) := by
  rw [dispatch]
  split
  · have h := counts_record (S := S) s a.task
    generalize record S s a.task = r at h ⊢
    obtain ⟨s', e | n⟩ := r
    · exact counts_refused _ _ nofun h.1 h.2.ge (h.2 ▸ id)
    · exact counts_refused _ _ (fun x hx => (Except.ok.inj hx).symm) h.1 h.2.ge (h.2 ▸ id)
  split
  · exact counts_refused _ _ nofun rfl le_rfl id
  split
  · exact counts_refused _ _ nofun rfl le_rfl id
  split
  · exact counts_refused _ _ nofun rfl le_rfl id
  next hle =>
    rw [request]
    split
    · split
      · exact counts_refused _ _ nofun rfl (Nat.le_succ _) fun _ => not_le.1 hle
      · exact counts_refused _ _ nofun rfl (Nat.le_succ _) fun _ => not_le.1 hle
    · split
      · exact counts_refused _ _ nofun rfl (Nat.le_succ _) fun _ => not_le.1 hle
      · exact ⟨by simp [Phase.resultBytes], id, by simp [Phase.calls, Phase.call, add_comm],
          fun _ => not_le.1 hle⟩

variable {toolCalls : ℕ} {s : Coroutines.State (Shared F) (Phase F) (Entry F)} {d : ℕ} {p : Phase F}

variable (S) in
/-- The counters are within their limits, and account for the calls and their results. -/
structure Counted (s : Coroutines.State (Shared F) (Phase F) (Entry F)) : Prop where
  bytes : total Phase.resultBytes s.phases ≤ s.shared.cumulativeResultBytes
  bytes_le : s.shared.cumulativeResultBytes ≤ S.limits.maxCumulativeResultBytes
  calls : total Phase.calls s.phases ≤ s.shared.nestedCalls
  calls_le : s.shared.nestedCalls ≤ S.limits.maxNestedCalls

theorem Counted.spawn (h : Counted S s) {m : Move F} (hm : Counts S s.shared 0 0 m) :
    Counted S (s.spawn m) where
  bytes := by
    have := h.bytes
    have := hm.bytes
    simp only [Coroutines.State.spawn, Coroutines.total_append, Coroutines.total_cons,
      Coroutines.total_nil]
    omega
  bytes_le := hm.bytes_le h.bytes_le
  calls := by
    have := h.calls
    have := hm.calls
    simp only [Coroutines.State.spawn, Coroutines.total_append, Coroutines.total_cons,
      Coroutines.total_nil]
    omega
  calls_le := hm.calls_le h.calls_le

theorem Counted.move (h : Counted S s) {m : Move F} (hp : s.phases[d]? = some p)
    (hm : Counts S s.shared p.resultBytes p.calls m) : Counted S (s.move d m) where
  bytes := by
    have := h.bytes
    have := hm.bytes
    have := Coroutines.total_set Phase.resultBytes hp m.2.1
    simp only [Coroutines.State.move]
    omega
  bytes_le := hm.bytes_le h.bytes_le
  calls := by
    have := h.calls
    have := hm.calls
    have := Coroutines.total_set Phase.calls hp m.2.1
    simp only [Coroutines.State.move]
    omega
  calls_le := hm.calls_le h.calls_le

theorem other_counts {s t : Shared F} {w : Other} (h : other s w = some t) :
    t.cumulativeResultBytes = s.cumulativeResultBytes ∧ t.nestedCalls = s.nestedCalls := by
  rw [other.eq_def] at h
  split at h
  · split at h
    · cases h
    · split at h <;> cases h <;> exact ⟨rfl, rfl⟩
  · split at h
    · cases h
      exact ⟨rfl, rfl⟩
    · cases h
  · cases h
    exact ⟨rfl, rfl⟩

theorem counted (hr : (system S toolCalls).Reachable s) : Counted S s := by
  refine Coroutines.Program.moves hr ⟨Nat.zero_le _, Nat.zero_le _, Nat.zero_le _, Nat.zero_le _⟩ ?_
  intro s t _ h hst
  cases hst with
  | @start a m hm =>
    simp only [program] at hm
    split at hm
    · cases hm
      exact h.spawn (counts_dispatch _ _)
    · cases hm
  | resume hp hm => exact h.move hp (counts_resume hm)
  | other ht =>
    have ⟨hbytes, hcalls⟩ := other_counts ht
    exact ⟨hbytes ▸ h.bytes, hbytes ▸ h.bytes_le, hcalls ▸ h.calls, hcalls ▸ h.calls_le⟩

theorem Within.resultBytes_le {c : Call F} {n : Json.Tree F} {resultBytes : ℕ} {report : Report F}
    (h : Within S c n resultBytes report) : resultBytes ≤ S.limits.maxResultBytes := by
  obtain ⟨v, hv⟩ := h.normalized
  rw [normalize] at hv
  cases hn : normalizeWorkerValue S.φ S.π v S.limits.maxResultBytes
      ("Code Mode result from " ++ c.capability.name) with
  | error e => rw [hn] at hv; cases hv
  | ok x =>
    rw [hn] at hv
    cases hv
    rw [normalizeWorkerValue] at hn
    split at hn
    next encoded hencoded =>
      split at hn
      · cases hn
        exact size_encodeProtocolValue_le hencoded
      · cases hn
    · cases hn
    · split at hn
      · cases hn
      · split at hn <;> cases hn

end Limits

/-! ## The pairing of events -/

section Paired

variable {F : Type} {S : Setting F} {toolCalls d : ℕ} {p : Phase F}
  {s : Coroutines.State (Shared F) (Phase F) (Entry F)}

/-- `TOOL_COMPLETED` or `TOOL_FAILED` is attempted for a call. -/
def Entry.Reports (id : Str) : Entry F → Bool
  | attempted (.completed callId ..) | attempted (.failed callId ..) => callId = id
  | _ => false

def Phase.IsFinished : Phase F → Prop
  | finished _ _ => True
  | _ => False

variable (S) in
/-- The events of a dispatch are paired: -/
structure Paired (s : Coroutines.State (Shared F) (Phase F) (Entry F)) (d : ℕ) (p : Phase F) :
    Prop where
  /-- Once a request has been emitted, exactly one report is attempted before the dispatch ends. -/
  one : ∀ id, .emitted .toolRequested id ∈ s.log d → p.IsFinished →
    (s.log d).countP (Entry.Reports id) = 1
  /-- No second one is attempted for a call, -/
  le_one : ∀ id, (s.log d).countP (Entry.Reports id) ≤ 1
  /-- and none before the request has been emitted. -/
  requested : ∀ pre x post id, s.log d = pre ++ x :: post → x.Reports id →
    .emitted .toolRequested id ∈ pre
  /-- When `TOOL_COMPLETED` is attempted there is a result within the limits, which is returned
      unless the emission raises. -/
  completed : ∀ id tool report resultBytes,
    .attempted (.completed id tool report resultBytes) ∈ s.log d → ∃ c n, c.id = id ∧
      Within S c n resultBytes report ∧ resultBytes ≤ S.limits.maxResultBytes ∧
      Coroutines.total Phase.resultBytes s.phases ≤ S.limits.maxCumulativeResultBytes ∧
      (p = .completing c n resultBytes ∨ p = .finished (some c) (.ok (some (n, resultBytes))) ∨
        .emitted .toolCompleted id ∉ s.log d ∧ ∃ e, p = .finished (some c) (.error e))

theorem countP_events (log : List (Entry F)) (id : Str) :
    (events log).countP (Entry.Reports id) = log.countP (Entry.Reports id) := by
  rw [events, List.countP_filter]
  refine List.countP_congr fun x _ => ?_
  cases x <;> simp [Entry.Reports, Entry.IsEvent]

theorem mem_events {log : List (Entry F)} {x : Entry F} (hx : x.IsEvent) :
    x ∈ events log ↔ x ∈ log :=
  List.mem_filter.trans (and_iff_left hx)

/-- The events after the emission of a request: a report of its call, and what does not report. -/
structure Reported (c : Call F) (t : Entry F) (rest : List (Entry F)) : Prop where
  report : ∀ id, t.Reports id ↔ c.id = id
  rest : ∀ x ∈ rest, ∀ id, ¬x.Reports id

/-- No request has been emitted, or one has, and a report is attempted before the dispatch ends. -/
inductive Shape (p : Phase F) : List (Entry F) → Prop
  | unrequested {es : List (Entry F)} (h : ∀ id, .emitted .toolRequested id ∉ es)
    (h' : ∀ x ∈ es, ∀ id, ¬x.Reports id) : Shape p es
  | pending (c : Call F) (arguments : Arguments F) (h : ¬p.IsFinished) :
    Shape p (requested c arguments)
  | reported {c : Call F} (arguments : Arguments F) {t : Entry F} {rest : List (Entry F)}
    (h : Reported c t rest) (h' : ∀ id, .emitted .toolRequested id ∉ t :: rest) :
    Shape p (requested c arguments ++ t :: rest)

theorem Traced.shape {es : List (Entry F)} (h : Traced S p es) : Shape p es := by
  cases h with
  | requesting | refused | unrequested =>
    exact .unrequested (by simp) (by simp [Entry.Reports])
  | executing c arguments | projecting c arguments => exact .pending c arguments id
  | completing arguments | uncompleted arguments | completed arguments =>
    exact .reported arguments ⟨by simp [completion, Entry.Reports], by simp [Entry.Reports]⟩
      (by simp [completion])
  | failing c arguments | unreported c arguments | failed c arguments =>
    exact .reported arguments ⟨by simp [failure, Entry.Reports], by simp [Entry.Reports]⟩
      (by simp [failure])

theorem not_reports_requested (c : Call F) (arguments : Arguments F) (id : Str) :
    ∀ x ∈ requested c arguments, ¬x.Reports id := by
  simp [requested, Entry.Reports]

theorem Reported.countP {c : Call F} {t : Entry F} {rest : List (Entry F)} (h : Reported c t rest)
    (arguments : Arguments F) (id : Str) :
    (requested c arguments ++ t :: rest).countP (Entry.Reports id) =
      if c.id = id then 1 else 0 := by
  rw [List.countP_append, List.countP_cons,
    List.countP_eq_zero.2 (not_reports_requested c arguments id),
    List.countP_eq_zero.2 fun x hx => h.rest x hx id, zero_add, zero_add]
  exact if_congr (h.report id) rfl rfl

theorem Shape.countP_le {es : List (Entry F)} (h : Shape p es) (id : Str) :
    es.countP (Entry.Reports id) ≤ 1 := by
  cases h with
  | unrequested _ h => exact (List.countP_eq_zero.2 fun x hx => h x hx id).trans_le zero_le_one
  | pending c arguments =>
    exact (List.countP_eq_zero.2 (not_reports_requested c arguments id)).trans_le zero_le_one
  | reported arguments h =>
    rw [h.countP]
    split <;> simp

theorem Shape.countP_eq {es : List (Entry F)} (h : Shape p es) (hp : p.IsFinished) {id : Str}
    (hid : .emitted .toolRequested id ∈ es) : es.countP (Entry.Reports id) = 1 := by
  cases h with
  | unrequested h => exact absurd hid (h id)
  | pending _ _ h => exact absurd hp h
  | @reported c arguments t rest h h' =>
    have hc : c.id = id := by
      obtain hid | hid := List.mem_append.1 hid
      · simpa [requested, eq_comm] using hid
      · exact absurd hid (h' id)
    rw [h.countP, if_pos hc]

/-- What reports a call comes after the emission of its request. -/
theorem Shape.requested_of_split {pre post : List (Entry F)} {x : Entry F}
    (h : Shape p (pre ++ x :: post)) {id : Str} (hx : x.Reports id) :
    .emitted .toolRequested id ∈ pre := by
  generalize hes : pre ++ x :: post = es at h
  have hmem : x ∈ es := hes ▸ List.mem_append_right _ List.mem_cons_self
  cases h with
  | unrequested _ h => exact absurd hx (h x hmem id)
  | pending c arguments => exact absurd hx (not_reports_requested c arguments id x hmem)
  | @reported c arguments t rest h h' =>
    have hx' : x ∉ requested c arguments := fun hx' => not_reports_requested c arguments id x hx' hx
    have hid : c.id = id := by
      obtain rfl | hrest := List.mem_cons.1 ((List.mem_append.1 hmem).resolve_left hx')
      · exact (h.report id).1 hx
      · exact absurd hx (h.rest x hrest id)
    have hsub : requested c arguments ⊆ pre := by
      obtain ⟨l, hl, hpost⟩ | ⟨l, rfl, -⟩ := List.append_eq_append_iff.1 hes
      · cases l with
        | nil => exact fun y hy => List.append_nil pre ▸ hl ▸ hy
        | cons y l =>
          -- then `x` is an event of the request
          obtain ⟨rfl, -⟩ := List.cons.inj hpost
          exact absurd (hl ▸ List.mem_append_right _ List.mem_cons_self) hx'
      · exact List.subset_append_left _ _
    exact hsub (by simp [requested, hid])

theorem Traced.completed_mem {es : List (Entry F)} (h : Traced S p es) {id : Str} {tool : String}
    {report : Report F} {resultBytes : ℕ}
    (hmem : .attempted (.completed id tool report resultBytes) ∈ es) : ∃ c n, c.id = id ∧
      Within S c n resultBytes report ∧ (p = .completing c n resultBytes ∨
        p = .finished (some c) (.ok (some (n, resultBytes))) ∨
        .emitted .toolCompleted id ∉ es ∧ ∃ e, p = .finished (some c) (.error e)) := by
  cases h with
  | @completing c arguments n resultBytes' report' hw =>
    obtain ⟨rfl, rfl, rfl, rfl⟩ : id = c.id ∧ tool = c.capability.name ∧ report = report' ∧
        resultBytes = resultBytes' := by simpa [requested, completion] using hmem
    exact ⟨c, n, rfl, hw, .inl rfl⟩
  | @uncompleted c arguments n resultBytes' report' hw e =>
    obtain ⟨rfl, rfl, rfl, rfl⟩ : id = c.id ∧ tool = c.capability.name ∧ report = report' ∧
        resultBytes = resultBytes' := by simpa [requested, completion] using hmem
    exact ⟨c, n, rfl, hw, .inr (.inr ⟨by simp [requested, completion], e, rfl⟩)⟩
  | @completed c arguments n resultBytes' report' hw =>
    obtain ⟨rfl, rfl, rfl, rfl⟩ : id = c.id ∧ tool = c.capability.name ∧ report = report' ∧
        resultBytes = resultBytes' := by simpa [requested, completion] using hmem
    exact ⟨c, n, rfl, hw, .inr (.inl rfl)⟩
  | _ => simp [requested, failure] at hmem

/-- In every state that is reached, the events of every dispatch are paired. -/
theorem nested_events (hr : (system S toolCalls).Reachable s) (hp : s.phases[d]? = some p) :
    Paired S s d p where
  one id hid hfinished := by
    rw [← countP_events]
    exact (traced hr hp).shape.countP_eq hfinished ((mem_events rfl).2 hid)
  le_one id := by
    rw [← countP_events]
    exact (traced hr hp).shape.countP_le id
  requested pre x post id hlog hx := by
    have hx' : x.IsEvent := by
      cases x with
      | attempted => rfl
      | _ => cases hx
    have hshape := (traced hr hp).shape
    rw [hlog, events_append, events, events, List.filter_cons_of_pos hx'] at hshape
    exact List.mem_of_mem_filter (hshape.requested_of_split hx)
  completed id tool report resultBytes hmem := by
    obtain ⟨c, n, hid, hw, h⟩ := (traced hr hp).completed_mem ((mem_events rfl).2 hmem)
    rw [mem_events rfl] at h
    exact ⟨c, n, hid, hw, hw.resultBytes_le, (counted hr).bytes.trans (counted hr).bytes_le, h⟩

end Paired

/-- A capability without parameters. -/
def listing : Setting Bool where
  φ := half
  π := textContext
  casefold := id
  repr := id
  capabilities := [{ name := "list", properties := [] }]
  limits := {
    maxResultBytes := 8
    maxCumulativeResultBytes := 8
    maxOutputBytes := 8
    maxNestedCalls := 1
    pos := by decide
    le := le_rfl }
  remoteRequired := true
  eventContext := .ok ()

/-- A call that returns `None`. -/
def listed : List (Coroutines.Label (Argument Bool) (Input Bool) Other) :=
  [.other .start,
    .start {
      task := { function := .ofString "list", agent := [], args := [], keywordArgs := [] }
      checkLimit := fun _ => .ok ()
      id := .ofString "1" },
    .resume 0 (.emission (.ok ())), .resume 0 (.executed (.ok (.value .none))),
    .resume 0 (.emission (.ok ()))]

theorem listed_isSome : (listed.foldlM (program listing).step
    { shared := initial listing 0, phases := [], trace := [] }).isSome := by
  decide +kernel

def afterListed : Coroutines.State (Shared Bool) (Phase Bool) (Entry Bool) :=
  (listed.foldlM (program listing).step
    { shared := initial listing 0, phases := [], trace := [] }).get listed_isSome

theorem reachable_afterListed : (system listing 0).Reachable afterListed :=
  Transition.System.reachable_of_replay (Option.some_get listed_isSome).symm

theorem nested_events_listed : ∃ p, afterListed.phases[0]? = some p ∧
    Paired listing afterListed 0 p :=
  have h : 0 < afterListed.phases.length := by decide +kernel
  have hp : afterListed.phases[0]? = some (afterListed.phases.get ⟨0, h⟩) :=
    List.getElem?_eq_getElem h
  ⟨_, hp, nested_events reachable_afterListed hp⟩

/-- The dispatch has returned, after both events. -/
example : (afterListed.log 0).countP (Entry.Reports (.ofString "1")) = 1 ∧
    afterListed.shared.cumulativeResultBytes = 4 := by
  decide +kernel

end Hyperforge.Codemode.Dispatch
