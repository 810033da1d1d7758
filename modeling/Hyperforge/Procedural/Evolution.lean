import Hyperforge.Library.Disk
import Hyperforge.Procedural.Graph
import Mathlib.Order.Basic

/-!
# Offline evolution of procedural graphs

`evolve` improves a graph in rounds. Each round runs the retained graph on a
batch of training tasks, asks a *refiner* for edits, given the traces and a
memory of past rejections, prepares a candidate and scores it on the validation
tasks. The candidate is retained if its mean score is not worse; whatever goes
wrong in a round rejects it and leaves the retained graph and score as they are.
Everything is recorded in the files of an output directory created by the run.

The caller owns the execution: the *runner* and the refiner are arbitrary, and
so are the values they return (`R`, `P`), the JSON values in the tasks and the
rollouts (`J`) and the scores (`S`). The runner is told which call it answers
(`Call`), so that it may behave differently at each one; the refiner is given
all the arguments it has received so far. Both may raise, and so may the
serialization of a document.

A run is a program (`Crash.Prog`) on the disk of the output directory and on a
`Log` of the calls and of the states at the boundaries of the rounds, which the
source does not keep.
-/

namespace Hyperforge

open Crash

/-- A Python exception. -/
structure Exc where
  type : String
  text : String
  /-- It is an `Exception`, not a cancellation or an exit. -/
  isException : Bool := true
  /-- It is a `TypeError` or a `ValueError`. -/
  isTypeOrValueError : Bool := false
  deriving DecidableEq

/-- How an exception is recorded. -/
def Exc.render (e : Exc) : String := e.type ++ ": " ++ e.text

def Exc.valueError (text : String) : Exc := ⟨"ValueError", text, true, true⟩

namespace Evolution

variable {J S R P : Type}

structure EvaluationTask (J : Type) where
  id : String
  query : String
  expected : J
  metadata : J

structure ScoredRollout (J S : Type) where
  taskId : String
  score : S
  trajectory : J
  output : String
  metrics : J

/-- A scored rollout with the query of its task. -/
structure Trace (J S : Type) where
  rollout : ScoredRollout J S
  query : String

/-- The evaluation a rollout is part of. -/
inductive Stage
  | baseline
  | training (round : ℕ)
  | validation (round : ℕ)
  deriving DecidableEq

/-- A call of the runner: the stage, and the position of the task in it. -/
structure Call where
  stage : Stage
  index : ℕ
  deriving DecidableEq

inductive Phase
  | training
  | refiner
  | proposal
  deriving DecidableEq

inductive Reason
  | error (phase : Phase)
  | validationError
  | validationWorse
  | validationNotWorse
  deriving DecidableEq

inductive ValidationStatus
  | notRun
  | scored
  | error
  deriving DecidableEq

structure ValidationRecord (J S : Type) where
  status : ValidationStatus := .notRun
  traces : List (Trace J S) := []
  score : Option S := none
  error : Option String := none

inductive RoundStatus
  | accepted
  | rejected
  deriving DecidableEq

/-- The audit record of a round. -/
structure Record (J S : Type) where
  round : ℕ
  parent : String
  retainedScore : S
  batchIds : List String
  candidate : Option GraphData
  candidateFingerprint : Option String
  edits : Option J
  trainTraces : List (Trace J S)
  validation : ValidationRecord J S
  status : RoundStatus
  reason : Reason
  error : Option String

/-- What the refiner is told about a rejection. -/
structure Summary (J S : Type) where
  round : ℕ
  reason : Reason
  retainedScore : S
  candidateScore : Option S
  edits : Option J
  candidateFingerprint : Option String
  structuralDiagnostic : Option String

structure Baseline (J S : Type) where
  graph : String
  traces : List (Trace J S)
  score : Except String S

/-- What `retained.json` tells: the fingerprint of the retained graph (which
    names its file), its score and the round of its acceptance. -/
structure Pointer (S : Type) where
  fingerprint : String
  validationScore : Option S
  round : ℕ

structure TokenCodec where
  tokenize : String → Except Exc (List ℤ)
  decode : List ℤ → Except Exc String

structure Config (J : Type) where
  trainTasks : List (EvaluationTask J)
  validationTasks : List (EvaluationTask J)
  testTasks : List (EvaluationTask J)
  availableTools : List String
  provenance : J
  rounds : ℤ := 10
  batchSize : ℤ := 1
  maxContextChars : ℤ := 16000
  maxContextTokens : Option ℤ := none
  tokenCodec : Option TokenCodec := none
  rejectionMemoryLimit : ℤ := 10
  maxRejectionChars : ℤ := 16000

structure Manifest (J : Type) where
  initialFingerprint : String
  splits : List (String × List String)
  splitContentHashes : List (String × String)
  provenance : J
  availableTools : List String
  rounds : ℤ
  batchSize : ℤ
  maxContextChars : Option ℤ
  maxContextTokens : Option ℤ
  rejectionMemoryLimit : ℤ
  maxRejectionChars : ℤ

/-- What is serialized to JSON. -/
inductive Document (J S : Type)
  | manifest (m : Manifest J)
  | graph (g : GraphData)
  | pointer (p : Pointer S)
  | baseline (b : Baseline J S)
  | record (r : Record J S)
  | trace (t : Trace J S)
  | edits (j : J)
  | summaries (l : List (Summary J S))
  | tasks (l : List (EvaluationTask J))

/-- The files of the output directory. -/
inductive Name
  | manifest
  | baseline
  | retained
  | graph (fingerprint : String)
  | round (id : ℕ)
  | rejection (id : ℕ)
  deriving DecidableEq

/-- The arguments of a call of the refiner. -/
structure RefinerArgs (J S : Type) where
  graph : ProceduralGraph
  context : String
  rejections : List (Summary J S)

/-- The code evolution relies on: the caller's, and that of the libraries. -/
structure Env (J S R P : Type) where
  runner : Call → ProceduralGraph → EvaluationTask J → Except Exc R
  refiner : List (RefinerArgs J S) → Except Exc P
  /-- Validating the result of the runner as a `ScoredRollout`. -/
  scoredRollout : R → Except Exc (ScoredRollout J S)
  /-- The value of a proposal to record, before it is known to be serializable. -/
  dumpProposal : P → Except Exc J
  reprProposal : P → J
  /-- Validating a proposal as `GraphEdits`. -/
  graphEdits : P → Except Exc GraphEdits
  /-- The exception raised for a refused graph. -/
  graphException : GraphError → Exc
  /-- The text of a document. -/
  json : Document J S → Except Exc String
  sha256 : GraphData → String
  hash : String → String
  provenanceKeys : J → List String
  /-- The sum of scores, and its division by their number. -/
  sum : List S → S
  div : S → ℕ → S

variable (env : Env J S R P) (cfg : Config J)

abbrev Env.fingerprint (g : ProceduralGraph) : String := g.fingerprint env.sha256

/-- The mean score of some traces. -/
def mean (traces : List (Trace J S)) : S :=
  env.div (env.sum (traces.map (·.rollout.score))) traces.length

/-! ## Evaluation -/

/-- What comes out of an evaluation: the calls made, the traces, which are kept
    when a rollout fails, and the mean score. -/
structure Evaluation (J S : Type) where
  calls : List (Call × ProceduralGraph × EvaluationTask J)
  traces : List (Trace J S)
  score : Except Exc S

/-- The trace of a task: its rollout must be valid, be about the task and be serializable. -/
def rollout (call : Call) (graph : ProceduralGraph) (task : EvaluationTask J) :
    Except Exc (Trace J S) := do
  let rollout ← env.scoredRollout (← env.runner call graph task)
  if rollout.taskId ≠ task.id then
    throw (.valueError ("Runner task ID mismatch: expected " ++ task.id ++ ", got " ++
      rollout.taskId))
  let _ ← env.json (.trace ⟨rollout, task.query⟩)
  return ⟨rollout, task.query⟩

/-- Running the graph on the tasks in turn, until a rollout fails. -/
def evaluateFrom (stage : Stage) (graph : ProceduralGraph) :
    ℕ → List (EvaluationTask J) → List (Trace J S) → Evaluation J S
  | _, [], traces =>
    ⟨[], traces,
      if traces.isEmpty then .error ⟨"ZeroDivisionError", "division by zero", true, false⟩
      else .ok (mean env traces)⟩
  | index, task :: tasks, traces =>
    match rollout env ⟨stage, index⟩ graph task with
    | .error e => ⟨[(⟨stage, index⟩, graph, task)], traces, .error e⟩
    | .ok trace =>
      let e := evaluateFrom stage graph (index + 1) tasks (traces ++ [trace])
      { e with calls := (⟨stage, index⟩, graph, task) :: e.calls }

def evaluate (stage : Stage) (graph : ProceduralGraph) (tasks : List (EvaluationTask J)) :
    Evaluation J S :=
  evaluateFrom env stage graph 0 tasks []

/-! ## Proposals -/

/-- The state of the loop over the rounds. -/
structure LoopState (J S : Type) where
  retained : ProceduralGraph
  retainedScore : S
  rejections : List (Record J S)
  cursor : ℕ

/-- The last `n` elements of a list (Python's `l[-n:]`, for a positive `n`). -/
def lastN {α : Type} (n : ℕ) (l : List α) : List α := l.drop (l.length - n)

/-- What a rejection tells the refiner: nothing about the validation examples
    or errors. -/
def summary (r : Record J S) : Summary J S where
  round := r.round
  reason := r.reason
  retainedScore := r.retainedScore
  candidateScore := r.validation.score
  edits := r.edits
  candidateFingerprint := r.candidateFingerprint
  structuralDiagnostic := if r.reason = .error .proposal then r.error else none

/-- Adding summaries in front of the others, newest first, while the list fits. -/
def selectSummaries : List (Record J S) → List (Summary J S) →
    Except Exc (List (Summary J S))
  | [], summaries => .ok summaries
  | r :: rejected, summaries => do
    let bounded := summary r :: summaries
    let text ← env.json (.summaries bounded)
    if (text.length : ℤ) ≤ cfg.maxRejectionChars then selectSummaries rejected bounded
    else selectSummaries rejected summaries

/-- The rejection memory supplied to the refiner. -/
def rejectionMemory (rejections : List (Record J S)) : Except Exc (List (Summary J S)) :=
  selectSummaries env cfg (lastN cfg.rejectionMemoryLimit.toNat rejections).reverse []

/-- The concatenated texts of the traces. -/
def trainingContext : List (Trace J S) → Except Exc String
  | [] => .ok ""
  | t :: traces => do
    let text ← env.json (.trace t)
    let rest ← trainingContext traces
    return text ++ "\n" ++ rest

/-- The tail of the context, in tokens or in characters. -/
def boundedContext (context : String) : Except Exc String :=
  match cfg.maxContextTokens, cfg.tokenCodec with
  | some n, some codec => do
    let tokens ← codec.tokenize context
    codec.decode (lastN n.toNat tokens)
  | some _, none => .error ⟨"AssertionError", "", true, false⟩
  | none, _ => .ok (String.ofList (lastN cfg.maxContextChars.toNat context.toList))

/-- The first part of a round: what it has called and recorded, and the
    candidate, or the phase that failed. -/
structure Proposing (J S : Type) where
  calls : List (Call × ProceduralGraph × EvaluationTask J)
  refinerCall : Option (RefinerArgs J S)
  trainTraces : List (Trace J S)
  edits : Option J
  outcome : Except (Phase × Exc) ProceduralGraph

/-- The edits to record, even if the proposal is malformed: an error that is
    not about types or values is raised, after what has been recorded. -/
def recordedEdits (proposal : P) : Option J × Except Exc Unit :=
  match env.dumpProposal proposal with
  | .error e =>
    if e.isTypeOrValueError then (some (env.reprProposal proposal), .ok ()) else (none, .error e)
  | .ok j =>
    match env.json (.edits j) with
    | .ok _ => (some j, .ok ())
    | .error e =>
      if e.isTypeOrValueError then (some (env.reprProposal proposal), .ok ())
      else (some j, .error e)

/-- The candidate obtained from a proposal. -/
def candidateOf (retained : ProceduralGraph) (proposal : P) : Except Exc ProceduralGraph := do
  let edits ← env.graphEdits proposal
  (prepareCandidate retained edits (some cfg.availableTools)).mapError env.graphException

/-- The arguments of the refiner, given the training traces. -/
def refinerArgs (st : LoopState J S) (traces : List (Trace J S)) :
    Except Exc (RefinerArgs J S) := do
  let context ← boundedContext cfg (← trainingContext env traces)
  return ⟨st.retained, context, ← rejectionMemory env cfg st.rejections⟩

/-- The batch of a round. -/
def batch (st : LoopState J S) : List (EvaluationTask J) :=
  (cfg.trainTasks.drop st.cursor).take cfg.batchSize.toNat

/-- Training, asking the refiner, who has received `history`, and preparing the candidate. -/
def propose (st : LoopState J S) (roundId : ℕ) (history : List (RefinerArgs J S)) :
    Proposing J S :=
  let training := evaluate env (.training roundId) st.retained (batch cfg st)
  match training.score with
  | .error e => ⟨training.calls, none, training.traces, none, .error (.training, e)⟩
  | .ok _ =>
    match refinerArgs env cfg st training.traces with
    | .error e => ⟨training.calls, none, training.traces, none, .error (.training, e)⟩
    | .ok args =>
      match env.refiner (history ++ [args]) with
      | .error e => ⟨training.calls, some args, training.traces, none, .error (.refiner, e)⟩
      | .ok proposal =>
        match recordedEdits env proposal with
        | (edits, .error e) =>
          ⟨training.calls, some args, training.traces, edits, .error (.proposal, e)⟩
        | (edits, .ok ()) =>
          ⟨training.calls, some args, training.traces, edits,
            (candidateOf env cfg st.retained proposal).mapError (.proposal, ·)⟩

/-! ## Artifacts -/

/-- The boundary of a round: the state of the loop, and what the refiner has
    received so far. -/
structure Boundary (J S : Type) extends LoopState J S where
  history : List (RefinerArgs J S)

/-- The calls made, the mean scores of the evaluations on the validation tasks
    (none for one that has raised), and the boundaries of the rounds. -/
structure Log (J S : Type) where
  runnerCalls : List (Call × ProceduralGraph × EvaluationTask J) := []
  refinerCalls : List (RefinerArgs J S) := []
  validations : List (Stage × Option S) := []
  boundaries : List (Boundary J S) := []

/-- Calling the runner. -/
def Log.run (calls : List (Call × ProceduralGraph × EvaluationTask J)) (l : Log J S) : Log J S :=
  { l with runnerCalls := l.runnerCalls ++ calls }

/-- Evaluating a graph on the validation tasks. -/
def Log.validate (stage : Stage) (v : Evaluation J S) (l : Log J S) : Log J S :=
  { l with
    runnerCalls := l.runnerCalls ++ v.calls
    validations := l.validations ++ [(stage, v.score.toOption)] }

/-- Calling the refiner, if it is called. -/
def Log.ask (call : Option (RefinerArgs J S)) (l : Log J S) : Log J S :=
  { l with refinerCalls := l.refinerCalls ++ call.toList }

/-- Reaching a boundary. -/
def Log.reach (st : LoopState J S) (l : Log J S) : Log J S :=
  { l with boundaries := l.boundaries ++ [⟨st, l.refinerCalls⟩] }

abbrev World (J S : Type) := Disk Name (Document J S) Exc × Log J S

abbrev Program (J S : Type) (α : Type) := Prog (World J S) Exc α

def log (f : Log J S → Log J S) : Program J S Unit := .op fun w => ((w.1, f w.2), .ok ())

/-- The outcome of an evaluation, which only an `Exception` may end. -/
def exceptionOnly {α : Type} (r : Except Exc α) : Program J S (Except Exc α) :=
  .read fun _ => match r with
    | .ok a => .ok (.ok a)
    | .error e => if e.isException then .ok (.error e) else .error e

namespace ArtifactStore

def fileExists : Exc := ⟨"FileExistsError", "", true, false⟩

/-- Publishing an immutable artifact. -/
def write (n : Name) (doc : Document J S) : Program J S Unit := do
  let _ ← Prog.read fun _ => env.json doc
  Prog.onFst (Disk.publish fileExists n doc)

/-- Publishing a graph under its fingerprint, unless it is there already. -/
def graph (g : ProceduralGraph) : Program J S Unit := do
  match ← Prog.onFst (Disk.look (.graph (env.fingerprint g))) with
  | none => write env (.graph (env.fingerprint g)) (.graph g.data.canonical)
  | some (some (.graph data)) =>
    if data ≠ g.data.canonical then Prog.raise (.valueError "Graph fingerprint collision")
  | some _ => Prog.raise (.valueError "Graph fingerprint collision")

/-- Pointing to the retained graph. -/
def retain (g : ProceduralGraph) (score : Option S) (roundId : ℕ) : Program J S Unit :=
  Prog.onFst (Disk.overwrite .retained (.pointer ⟨env.fingerprint g, score, roundId⟩))

/-- Claiming the output directory, with its subdirectories. -/
def init (outputExists : Bool) : Program J S Unit :=
  if outputExists then Prog.raise fileExists
  else do
    Prog.onFst Disk.idle -- output
    Prog.onFst Disk.idle -- graphs
    Prog.onFst Disk.idle -- rounds
    Prog.onFst Disk.idle -- rejections

end ArtifactStore

/-! ## Rounds -/

/-- The record of a round that failed before validation. -/
def failedRecord (st : LoopState J S) (roundId : ℕ) (p : Proposing J S) (phase : Phase)
    (e : Exc) : Record J S where
  round := roundId
  parent := env.fingerprint st.retained
  retainedScore := st.retainedScore
  batchIds := (batch cfg st).map (·.id)
  candidate := none
  candidateFingerprint := none
  edits := p.edits
  trainTraces := p.trainTraces
  validation := {}
  status := .rejected
  reason := .error phase
  error := some e.render

/-- The record of a round whose candidate has been evaluated. -/
def validatedRecord [LE S] [DecidableLE S] (st : LoopState J S) (roundId : ℕ) (p : Proposing J S)
    (candidate : ProceduralGraph) (v : Evaluation J S) : Record J S where
  round := roundId
  parent := env.fingerprint st.retained
  retainedScore := st.retainedScore
  batchIds := (batch cfg st).map (·.id)
  candidate := some candidate.data
  candidateFingerprint := some (env.fingerprint candidate)
  edits := p.edits
  trainTraces := p.trainTraces
  validation := match v.score with
    | .ok score => ⟨.scored, v.traces, some score, none⟩
    | .error e => ⟨.error, v.traces, none, some e.render⟩
  status := match v.score with
    | .ok score => if st.retainedScore ≤ score then .accepted else .rejected
    | .error _ => .rejected
  reason := match v.score with
    | .ok score => if st.retainedScore ≤ score then .validationNotWorse else .validationWorse
    | .error _ => .validationError
  error := none

/-- The cursor after the batch of a round. -/
def nextCursor (st : LoopState J S) : ℕ :=
  (st.cursor + (batch cfg st).length) % cfg.trainTasks.length

/-- The state after a rejection: the graph and its score stay. -/
def rejected (st : LoopState J S) (record : Record J S) : LoopState J S :=
  { st with cursor := nextCursor cfg st, rejections := st.rejections ++ [record] }

/-- The state after an acceptance: the candidate is retained, with its score. -/
def accepted (st : LoopState J S) (candidate : ProceduralGraph) (score : S) : LoopState J S :=
  { st with cursor := nextCursor cfg st, retained := candidate, retainedScore := score }

/-- Recording a rejection. -/
def reject (st : LoopState J S) (roundId : ℕ) (record : Record J S) :
    Program J S (LoopState J S) := do
  ArtifactStore.write env (.round roundId) (.record record)
  ArtifactStore.write env (.rejection roundId) (.record record)
  return rejected cfg st record

/-- Recording an acceptance. -/
def accept (st : LoopState J S) (roundId : ℕ) (record : Record J S) (candidate : ProceduralGraph)
    (score : S) : Program J S (LoopState J S) := do
  ArtifactStore.write env (.round roundId) (.record record)
  ArtifactStore.retain env candidate (some score) roundId
  return accepted cfg st candidate score

/-- Validating a candidate, and retaining it if it is not worse. -/
def validate [LE S] [DecidableLE S] (st : LoopState J S) (roundId : ℕ) (p : Proposing J S)
    (candidate : ProceduralGraph) : Program J S (LoopState J S) := do
  ArtifactStore.graph env candidate
  let v := evaluate env (.validation roundId) candidate cfg.validationTasks
  log (Log.validate (.validation roundId) v)
  match ← exceptionOnly v.score with
  | .error _ => reject env cfg st roundId (validatedRecord env cfg st roundId p candidate v)
  | .ok score =>
    if st.retainedScore ≤ score then
      accept env cfg st roundId (validatedRecord env cfg st roundId p candidate v) candidate score
    else reject env cfg st roundId (validatedRecord env cfg st roundId p candidate v)

/-- A round, up to its records. -/
def runRound [LE S] [DecidableLE S] (st : LoopState J S) (roundId : ℕ) :
    Program J S (LoopState J S) := do
  let history ← Prog.read fun w => .ok w.2.refinerCalls
  let p := propose env cfg st roundId history
  log (Log.run p.calls)
  log (Log.ask p.refinerCall)
  match p.outcome with
  | .error (phase, e) => do
    let _ ← exceptionOnly (.error e : Except Exc Unit)
    reject env cfg st roundId (failedRecord env cfg st roundId p phase e)
  | .ok candidate => validate env cfg st roundId p candidate

/-- A round, up to its boundary. -/
def round [LE S] [DecidableLE S] (st : LoopState J S) (roundId : ℕ) :
    Program J S (LoopState J S) := do
  let next ← runRound env cfg st roundId
  log (Log.reach next)
  return next

/-! ## Evolution -/

/-- The identifiers of all the tasks. -/
def Config.ids : List String :=
  (cfg.trainTasks ++ cfg.validationTasks ++ cfg.testTasks).map (·.id)

/-- The checks of the configuration. -/
def checkConfig : Except Exc Unit :=
  if cfg.rounds < 0 ∨ cfg.batchSize < 1 ∨ cfg.rejectionMemoryLimit < 0 then
    .error (.valueError "rounds/memory limit must be nonnegative; batch_size must be positive")
  else if cfg.maxContextChars < 1 then .error (.valueError "max_context_chars must be positive")
  else if cfg.maxRejectionChars < 1 then
    .error (.valueError "max_rejection_chars must be positive")
  else if cfg.maxContextTokens.any fun n => n < 1 || cfg.tokenCodec.isNone then
    .error (.valueError "max_context_tokens requires a positive limit and token_codec")
  else if ["model", "evaluator", "tools"].any (· ∉ env.provenanceKeys cfg.provenance) then
    .error (.valueError "provenance requires model, evaluator and tools")
  else if cfg.trainTasks.isEmpty ∨ cfg.validationTasks.isEmpty then
    .error (.valueError "train and validation splits must be nonempty")
  else if cfg.ids.any isBlank ∨ ¬cfg.ids.Nodup then
    .error (.valueError "Task IDs must be nonempty, unique and disjoint across splits")
  else .ok ()

/-- The tasks of each split, by name. -/
def splits : List (String × List (EvaluationTask J)) :=
  [("train", cfg.trainTasks), ("validation", cfg.validationTasks), ("test", cfg.testTasks)]

/-- The manifest of the run. -/
def manifest (graph : ProceduralGraph) : Except Exc (Manifest J) := do
  let hashes ← (splits cfg).mapM fun (name, tasks) => do
    return (name, env.hash (← env.json (.tasks tasks)))
  return {
    initialFingerprint := env.fingerprint graph
    splits := (splits cfg).map fun (name, tasks) => (name, tasks.map (·.id))
    splitContentHashes := hashes
    provenance := cfg.provenance
    availableTools := cfg.availableTools
    rounds := cfg.rounds
    batchSize := cfg.batchSize
    maxContextChars := if cfg.maxContextTokens.isNone then some cfg.maxContextChars else none
    maxContextTokens := cfg.maxContextTokens
    rejectionMemoryLimit := cfg.rejectionMemoryLimit
    maxRejectionChars := cfg.maxRejectionChars }

/-- Everything checked before the output directory is claimed. -/
def prepare (initialGraph : GraphData) : Except Exc (ProceduralGraph × Manifest J) := do
  checkConfig env cfg
  let retained ← (ProceduralGraph.ofData initialGraph).mapError env.graphException
  (retained.data.checkTools cfg.availableTools).mapError env.graphException
  let m ← manifest env cfg retained
  let _ ← env.json (.manifest m)
  return (retained, m)

def baselineFailed : Exc :=
  ⟨"RuntimeError", "Initial validation failed; initial graph retained without a score", true, false⟩

/-- Scoring the initial graph. -/
def scoreBaseline (retained : ProceduralGraph) : Program J S (LoopState J S) := do
  let v := evaluate env .baseline retained cfg.validationTasks
  log (Log.validate .baseline v)
  match ← exceptionOnly v.score with
  | .error e => do
    ArtifactStore.write env .baseline
      (.baseline ⟨env.fingerprint retained, v.traces, .error e.render⟩)
    Prog.raise baselineFailed
  | .ok score => do
    ArtifactStore.write env .baseline (.baseline ⟨env.fingerprint retained, v.traces, .ok score⟩)
    ArtifactStore.retain env retained (some score) 0
    let st : LoopState J S := ⟨retained, score, [], 0⟩
    log (Log.reach st)
    return st

/-- The evolution of a graph: the graph retained in the end. -/
def evolve [LE S] [DecidableLE S] (initialGraph : GraphData) (outputExists : Bool) :
    Program J S ProceduralGraph := do
  let (retained, m) ← Prog.read fun _ => prepare env cfg initialGraph
  ArtifactStore.init outputExists
  ArtifactStore.write env .manifest (.manifest m)
  ArtifactStore.graph env retained
  ArtifactStore.retain env retained none 0
  let st ← scoreBaseline env cfg retained
  let st ← Prog.loop (round env cfg) st (List.range' 1 cfg.rounds.toNat)
  return st.retained

/-- The world before a run: the output directory does not exist, or is empty for the run. -/
def start (fault : ℕ → Option Exc) : World J S := (Disk.empty fault, {})

end Evolution

end Hyperforge
