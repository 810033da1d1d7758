import Hyperforge.A2a.TaskStore
import Hyperforge.Library.Transition

/-!
# Feedback from A2A clients

A task of the A2A server is executed by one of its instances, the owner. It streams the answer of
the agent until the agent asks for feedback, makes a record of what is pending, and waits. A later
message of a client may come to any instance, which claims the record, sends the response to the
owner, and relays what the owner publishes of the answer from then on (`Submission`).

The instances share the record, the replies to the owner and the relays (`Execution`), and take
their steps in any order. A step is what is done between two awaits. Records and entries of streams
may be lost at any time, be it that they expire, that a stream has too many, or that a cancellation
removes them.
-/

namespace Hyperforge.A2a

open Transition

/-! ## Answers of the agent -/

inductive AnswerOperation
  | answer
  | start
  | done
  | error
  | agentRequest
  | answerChunk
  | reasoning
  deriving DecidableEq

/-- A request for feedback, with a response schema `β`. -/
structure Feedback (β : Type) where
  requestId : Text
  feedbackId : Text
  question : Text
  module : Text
  agentId : Text
  responseSchema : β

structure Step where
  module : Text
  title : Text
  reason : Option Text
  value : Option Text
  agentPath : Text

/-- An answer, as far as the executor reads it: the detail of its exception, and texts. -/
structure AragAnswer (β : Type) where
  exception : Option Text := none
  answer : Option Text := none
  generatedText : Option Text := none
  step : Option Step := none
  operation : AnswerOperation := .answer
  feedback : Option (Feedback β) := none
  streamingResponseChunk : Option Text := none

/-- What is published of a task. -/
inductive Event (β : Type)
  | submitted
  | startWork
  | artifact (name title : Text) (step : Option Step)
  | requiresInput (feedback : Feedback β)
  | failed (detail : Text)
  | complete
  | cancel

/-- Messages of a relay. -/
inductive AgentMessage (β : Type)
  | answer (msg : AragAnswer β)
  | done

section Answers

variable {β : Type} (msg : AragAnswer β)

/-- `arag_answer_to_parts`, which are one at most -/
def AragAnswer.toParts : Option Text :=
  msg.answer.filter (· ≠ []) <|> msg.streamingResponseChunk.filter (· ≠ []) <|>
    msg.generatedText.filter (· ≠ [])

/-- What is published of an answer by `publish_step`, or else of its parts. -/
def AragAnswer.artifact : Option (Event β) :=
  match msg.step with
  | some step => some (.artifact (text "step") step.title (some step))
  | none => msg.toParts.map fun part => .artifact (text "answer") part none

/-- How the owner takes an answer. -/
inductive Turn (β : Type)
  | error (detail : Text)
  | request (feedback : Feedback β)
  | done
  | more

def AragAnswer.turn : Turn β :=
  match msg.operation, msg.feedback with
  | .error, _ => .error (msg.exception.getD (text "Unknown error"))
  | .agentRequest, some feedback => .request feedback
  | .done, _ => .done
  | _, _ => .more

/-- The request for feedback in an answer, if it is one. -/
def AragAnswer.asked : Option (Feedback β) :=
  match msg.turn with
  | .request feedback => some feedback
  | _ => none

/-- What a message of a relay makes its reader publish, and whether that is the last. -/
def AgentMessage.read : AgentMessage β → Option (Event β) × Bool
  | .answer msg =>
    match msg.turn with
    | .error detail => (some (.failed detail), true)
    | .request feedback => (some (.requiresInput feedback), true)
    | _ => (msg.artifact, false)
  | .done => (some .complete, true)

/-- The messages by which the owner relays an answer. -/
def AragAnswer.messages : List (AgentMessage β) :=
  match msg.turn with
  | .error _ => [.answer msg, .done]
  | .done => [.done]
  | _ => [.answer msg]

/-- The answer that an owner makes when the stream ends too early. -/
def unexpectedEnd : AragAnswer β where
  operation := .error
  exception := some (text "Hyperforge response stream ended unexpectedly")

end Answers

/-! ## The state -/

/-- A response on its way to the owner. The topic of its relay is that of its submission. -/
structure Reply where
  requestId : Text
  response : Text
  relayTopic : ℕ
  deriving DecidableEq

/-- What a receiver has in its queue, which has room for one. -/
inductive Item
  | interaction (requestId response : Text)
  | shutdown

/-- How far the stream of answers has come. After a request for feedback it waits for what is in
    the queue when it is resumed. -/
inductive StreamPhase (β : Type)
  | running
  | paused (feedback : Feedback β)
  | ended

/-- What is reported when pending feedback has been discarded. -/
inductive Report
  | silent
  | failed (detail : Text)
  | relayed (i : ℕ)

/-- How far the owner has come. Answers are for the request that it executes, or for a relay. -/
inductive OwnerPhase (β : Type)
  | pulling (relay : Option ℕ)
  /-- It publishes messages, and finishes then if they are the last ones. -/
  | publishing (relay : ℕ) (messages : List (AgentMessage β)) (last : Bool)
  | saving (relay : Option ℕ) (msg : AragAnswer β) (feedback : Feedback β)
  | completing (relay : Option ℕ)
  | waiting
  | received (reply : Reply)
  | putting (reply : Reply)
  | discarding (report : Report)
  | finished

/-- How far the forwarding of a response has come. -/
inductive SubmissionPhase
  | submitted
  | matched
  | claimed (record : PendingTaskRecord)
  | undelivered
  | relaying (cursor : ℕ)
  | ended

structure Submission where
  contextId : Text
  feedbackId : Text
  response : Text
  phase : SubmissionPhase

/-- The record is for the round that the submission answers. -/
def Submission.Matches (u : Submission) (record : PendingTaskRecord) : Prop :=
  record.contextId = u.contextId ∧ record.feedbackId = u.feedbackId

/-- What is sent to the owner of a record that a submission has claimed. -/
def Submission.reply (u : Submission) (i : ℕ) (record : PendingTaskRecord) : Reply :=
  ⟨record.requestId, u.response, i⟩

/-- The messages of a relay that have been published, and how many of the first are gone. -/
structure Relay (β : Type) where
  log : List (AgentMessage β) := []
  trimmed : ℕ := 0

/-- Who publishes. -/
inductive Publisher
  | execute
  | submission (i : ℕ)
  | cancel
  deriving DecidableEq

/-- The execution of a task: what its owner and the submissions share. -/
structure Execution (β : Type) where
  taskId : Text
  contextId : Text
  instanceId : Text
  record : Option PendingTaskRecord := none
  replies : List Reply := []
  relays : ℕ → Relay β := fun _ => {}
  submissions : ℕ → Option Submission := fun _ => none
  phase : OwnerPhase β := .pulling none
  stream : StreamPhase β := .running
  /-- The round in `_pending_tasks`. -/
  pending : Option (Feedback β) := none
  queue : Option Item := none
  cancelled : Bool := false
  /-- Requests that are still to be published after their rounds have begun. -/
  announcing : List (Option ℕ × AragAnswer β × Feedback β) := []
  published : List (Publisher × Event β) := [(.execute, .submitted), (.execute, .startWork)]
  /-- What the owner has taken from the stream so far, and for whom. An end without a last answer
      is taken as an answer that says so. -/
  taken : List (Option ℕ × AragAnswer β) := []
  /-- The ids of feedback that have been claimed so far, and by whom. -/
  claims : List (Text × ℕ) := []
  /-- The replies that have been sent to the owner so far, with the ids claimed for them. -/
  forwards : List (Text × Reply) := []
  /-- The responses that the agent has been sent so far, under ids of feedback. -/
  deliveries : List (Text × Text × Text) := []

namespace Execution

variable {β : Type} (s : Execution β)

def emit (who : Publisher) (event : Event β) : Execution β :=
  { s with published := s.published ++ [(who, event)] }

def emit? (who : Publisher) (event : Option (Event β)) : Execution β :=
  { s with published := s.published ++ event.toList.map (who, ·) }

def setSubmission (i : ℕ) (u : Submission) (phase : SubmissionPhase) : Execution β :=
  { s with submissions := Function.update s.submissions i (some { u with phase := phase }) }

/-- The submission ends with a failure. -/
def fail (i : ℕ) (u : Submission) (detail : String) : Execution β :=
  (s.emit (.submission i) (.failed (text detail))).setSubmission i u .ended

/-! ## The owner -/

/-- `_discard_pending_task`, until it removes the record -/
def discardPending (report : Report) : Execution β :=
  { s with
    pending := none
    queue := if s.pending.isSome then s.queue <|> some Item.shutdown else s.queue
    phase := .discarding report }

/-- What is left to do after the record has been removed. -/
def discard : Report → Execution β
  | .silent => { s with record := none, phase := .finished }
  | .failed detail => { s with record := none, phase := .finished }.emit .execute (.failed detail)
  | .relayed i =>
    { s with record := none, phase := .publishing i unexpectedEnd.messages true }

/-- The owner takes an answer for the request that it executes, or for a relay. -/
def take (relay : Option ℕ) (msg : AragAnswer β) : Execution β :=
  if s.cancelled then { s with phase := .finished }
  else match msg.turn, relay with
    | .error detail, none => { s with phase := .finished }.emit .execute (.failed detail)
    | .error _, some i => { s with pending := none, phase := .publishing i msg.messages true }
    | .request feedback, relay =>
      { s with pending := some feedback, phase := .saving relay msg feedback }
    | .done, relay => { s with pending := none, phase := .completing relay }
    | .more, none => s.emit? .execute msg.artifact
    | .more, some i => { s with phase := .publishing i msg.messages false }

/-- The requests for feedback that the owner has taken so far. -/
def issued : List (Feedback β) := s.taken.filterMap (·.2.asked)

/-- The stream after an answer: every request has an id of its own. -/
def advance (msg : AragAnswer β) : Option (StreamPhase β) :=
  match msg.asked with
  | some feedback =>
    if feedback.feedbackId ∈ s.issued.map Feedback.feedbackId then none
    else some (.paused feedback)
  | none => some .running

/-- The owner has taken an answer, for the request that it executes or for a relay. -/
def taking (relay : Option ℕ) (msg : AragAnswer β) : Execution β :=
  { s with taken := s.taken ++ [(relay, msg)] }

/-- What an exception is reported as, to the request that the owner executes. -/
def raised : Report := if s.cancelled then .silent else .failed (text "Internal A2A error")

/-- `save_pending`, after which a waiter starts -/
def savePending (relay : Option ℕ) (msg : AragAnswer β) (feedback : Feedback β) : Execution β :=
  { s with
    record := some ⟨s.taskId, s.contextId, feedback.feedbackId, feedback.requestId, s.instanceId⟩
    phase := .waiting
    announcing := s.announcing ++ [(relay, msg, feedback)] }

def publish (i : ℕ) (m : AgentMessage β) : Execution β :=
  { s with
    relays := Function.update s.relays i { s.relays i with log := (s.relays i).log ++ [m] } }

/-- The request of a round that has begun is published. -/
def announce : Option ℕ × AragAnswer β × Feedback β → Execution β
  | (none, _, feedback) => s.emit .execute (.requiresInput feedback)
  | (some i, msg, _) => s.publish i (.answer msg)

/-- `_cancel_local_task` of the owner, until it removes the record -/
def cancelLocal : Execution β :=
  { s with
    cancelled := true
    pending := none
    queue := s.queue <|> some Item.shutdown }

end Execution

/-! ## Steps -/

namespace OwnerPhase

variable {β : Type}

/-- What executes the request is at work, and not a waiter. -/
def Executing : OwnerPhase β → Prop
  | .pulling none | .saving none _ _ | .completing none | .discarding (.failed _) => True
  | _ => False

/-- The owner works on the answer: what is pending has not been saved yet, or has been answered. -/
def Working : OwnerPhase β → Prop
  | .pulling _ | .publishing _ _ false | .saving _ _ _ | .received _ | .putting _ => True
  | _ => False

/-- A waiter is at work. -/
def Waits : OwnerPhase β → Prop
  | .finished => False
  | phase => ¬phase.Executing

end OwnerPhase

/-- The steps of the owner. The keys of replies that have been received may fail to be deleted,
    unless they are said to be. -/
inductive OwnerStep {β : Type} (deletes : Bool) (s : Execution β) : Execution β → Prop
  | yield {relay : Option ℕ} {msg : AragAnswer β} {stream : StreamPhase β}
      (hphase : s.phase = .pulling relay) (hstream : s.stream = .running)
      (hadvance : s.advance msg = some stream) :
      OwnerStep deletes s (({ s with stream := stream }.taking relay msg).take relay msg)
  /-- The stream sends the agent the response in the queue, as the one to its request. -/
  | receiveFeedback {relay : Option ℕ} {feedback : Feedback β} {requestId response : Text}
      (hphase : s.phase = .pulling relay) (hstream : s.stream = .paused feedback)
      (hqueue : s.queue = some (.interaction requestId response)) :
      OwnerStep deletes s { s with
        stream := .running
        queue := none
        deliveries := s.deliveries ++ [(feedback.feedbackId, requestId, response)] }
  | disconnect {relay : Option ℕ} {feedback : Feedback β} (hphase : s.phase = .pulling relay)
      (hstream : s.stream = .paused feedback) (hqueue : s.queue = some .shutdown) :
      OwnerStep deletes s { s with stream := .ended, queue := none }
  /-- The stream ends without a last answer, and the task has been cancelled. -/
  | endCancelled {relay : Option ℕ} (hphase : s.phase = .pulling relay)
      (hstream : ∀ feedback, s.stream ≠ .paused feedback) (hcancelled : s.cancelled) :
      OwnerStep deletes s { s with stream := .ended, phase := .finished }
  /-- The stream ends without a last answer. -/
  | endExecuting (hphase : s.phase = .pulling none)
      (hstream : ∀ feedback, s.stream ≠ .paused feedback) (hcancelled : ¬s.cancelled) :
      OwnerStep deletes s (({ s with stream := .ended }.taking none unexpectedEnd).discardPending
        (.failed (text "Hyperforge response stream ended unexpectedly")))
  | endRelay {i : ℕ} (hphase : s.phase = .pulling (some i))
      (hstream : ∀ feedback, s.stream ≠ .paused feedback) (hcancelled : ¬s.cancelled) :
      OwnerStep deletes s
        (({ s with stream := .ended }.taking (some i) unexpectedEnd).discardPending (.relayed i))
  | raiseExecuting (hphase : s.phase.Executing) :
      OwnerStep deletes s (s.discardPending s.raised)
  | raiseWaiting (hphase : s.phase.Waits) : OwnerStep deletes s (s.discardPending .silent)
  | save {relay : Option ℕ} {msg : AragAnswer β} {feedback : Feedback β}
      (hphase : s.phase = .saving relay msg feedback) :
      OwnerStep deletes s (s.savePending relay msg feedback)
  | announce {k : ℕ} {a : Option ℕ × AragAnswer β × Feedback β} (ha : s.announcing[k]? = some a) :
      OwnerStep deletes s ({ s with announcing := s.announcing.eraseIdx k }.announce a)
  /-- What publishes the request fails: what executes the first request cancels the waiter. -/
  | announceFails {k : ℕ} {i : Option ℕ} {a : AragAnswer β × Feedback β}
      (ha : s.announcing[k]? = some (i, a)) :
      OwnerStep deletes s { s.discardPending .silent with
        announcing := s.announcing.eraseIdx k
        phase := if i = none then .discarding s.raised else s.phase }
  | publish {i : ℕ} {m : AgentMessage β} {ms : List (AgentMessage β)} {last : Bool}
      (hphase : s.phase = .publishing i (m :: ms) last) :
      OwnerStep deletes s { s.publish i m with phase := .publishing i ms last }
  | published {i : ℕ} {last : Bool} (hphase : s.phase = .publishing i [] last) :
      OwnerStep deletes s { s with phase := if last then .finished else .pulling (some i) }
  | complete (hphase : s.phase = .completing none) :
      OwnerStep deletes s
        ({ s with record := none, phase := .finished }.emit .execute .complete)
  | completeRelay {i : ℕ} (hphase : s.phase = .completing (some i)) :
      OwnerStep deletes s { s with record := none, phase := .publishing i [.done] true }
  /-- `receive_reply` has the first of the replies. -/
  | receive {reply : Reply} {replies : List Reply} (hphase : s.phase = .waiting)
      (hreplies : s.replies = reply :: replies) :
      OwnerStep deletes s { s with phase := .received reply }
  /-- The key of the replies is deleted, where a failure is ignored. -/
  | delete {reply : Reply} {deleted : Bool} (hphase : s.phase = .received reply)
      (hdeleted : deletes → deleted) :
      OwnerStep deletes s { s with
        replies := if deleted then [] else s.replies
        phase := if s.pending.isSome then .putting reply else .finished }
  | put {reply : Reply} (hphase : s.phase = .putting reply) (hqueue : s.queue = none) :
      OwnerStep deletes s { s with
        queue := some (.interaction reply.requestId reply.response)
        phase := .pulling (some reply.relayTopic) }
  | timeOut (hphase : s.phase = .waiting) : OwnerStep deletes s (s.discardPending .silent)
  | removeDiscarded {report : Report} (hphase : s.phase = .discarding report) :
      OwnerStep deletes s (s.discard report)
  /-- What executes the request sees a cancellation with the next answer. -/
  | cancelExecuting (hphase : s.phase.Executing) : OwnerStep deletes s s.cancelLocal
  /-- A waiter is cancelled where it is. -/
  | cancelWaiting (hphase : ¬s.phase.Executing) :
      OwnerStep deletes s { s.cancelLocal with phase := .finished }
  /-- A waiter is cancelled in the subscription of the stream, which takes that for its end. -/
  | cancelSubscribed {i : ℕ} (hphase : s.phase = .pulling (some i))
      (hstream : s.stream = .running) :
      OwnerStep deletes s { s.cancelLocal with stream := .ended }
  | forgetCancelled (hphase : ¬s.phase.Executing) :
      OwnerStep deletes s { s with cancelled := false }

/-- The steps of a submission. -/
inductive SubmissionStep {β : Type} (s : Execution β) (i : ℕ) : Execution β → Prop
  /-- A message without feedback id or response is not accepted. -/
  | refuse {u : Submission} (hi : s.submissions i = none) :
      SubmissionStep s i (s.setSubmission i u .ended)
  | submit {u : Submission} (hi : s.submissions i = none) (hresponse : u.response ≠ []) :
      SubmissionStep s i (s.setSubmission i u .submitted)
  /-- `get_pending` finds nothing. -/
  | expired {u : Submission} (hi : s.submissions i = some u) (hphase : u.phase = .submitted)
      (hrecord : s.record = none) :
      SubmissionStep s i (s.fail i u "A2A task has expired")
  | mismatch {u : Submission} {record : PendingTaskRecord} (hi : s.submissions i = some u)
      (hphase : u.phase = .submitted) (hrecord : s.record = some record)
      (hmatch : ¬u.Matches record) :
      SubmissionStep s i (s.setSubmission i u .ended)
  | startWork {u : Submission} {record : PendingTaskRecord} (hi : s.submissions i = some u)
      (hphase : u.phase = .submitted) (hrecord : s.record = some record)
      (hmatch : u.Matches record) :
      SubmissionStep s i ((s.emit (.submission i) .startWork).setSubmission i u .matched)
  /-- `claim_pending` -/
  | claim {u : Submission} {record : PendingTaskRecord} (hi : s.submissions i = some u)
      (hphase : u.phase = .matched) (hrecord : s.record = some record)
      (hmatch : u.Matches record) :
      SubmissionStep s i ({ s with
        record := none
        claims := s.claims ++ [(u.feedbackId, i)] }.setSubmission i u (.claimed record))
  | unclaimed {u : Submission} (hi : s.submissions i = some u) (hphase : u.phase = .matched)
      (hmatch : ∀ record ∈ s.record, ¬u.Matches record) :
      SubmissionStep s i (s.fail i u "A2A task has expired")
  /-- `send_reply`, which may also fail after the reply has been sent -/
  | send {u : Submission} {record : PendingTaskRecord} {ok : Bool} (hi : s.submissions i = some u)
      (hphase : u.phase = .claimed record) :
      SubmissionStep s i ({ s with
        replies := s.replies ++ [u.reply i record]
        forwards := s.forwards ++ [(u.feedbackId, u.reply i record)] }.setSubmission i u
        (if ok then .relaying 0 else .undelivered))
  | sendFails {u : Submission} {record : PendingTaskRecord} (hi : s.submissions i = some u)
      (hphase : u.phase = .claimed record) :
      SubmissionStep s i (s.setSubmission i u .undelivered)
  | remove {u : Submission} (hi : s.submissions i = some u) (hphase : u.phase = .undelivered) :
      SubmissionStep s i ({ s with record := none }.fail i u
        "A2A feedback could not be delivered; resend the request")
  /-- A message of the relay, where only messages that are gone may be left out. -/
  | relay {u : Submission} {cursor j : ℕ} {m : AgentMessage β} (hi : s.submissions i = some u)
      (hphase : u.phase = .relaying cursor) (hcursor : cursor ≤ j)
      (htrimmed : j ≤ max cursor (s.relays i).trimmed) (hm : (s.relays i).log[j]? = some m) :
      SubmissionStep s i ((s.emit? (.submission i) m.read.1).setSubmission i u
        (if m.read.2 then .ended else .relaying (j + 1)))
  /-- The relay fails, or takes too long. -/
  | interrupt {u : Submission} {cursor : ℕ} (hi : s.submissions i = some u)
      (hphase : u.phase = .relaying cursor) :
      SubmissionStep s i (s.fail i u
        "A2A task was interrupted by a server restart; resend the request to continue")
  /-- An exception of the stores, or the end of its server. -/
  | abort {u : Submission} (hi : s.submissions i = some u) :
      SubmissionStep s i (s.setSubmission i u .ended)

/-- What is lost and cancelled: records and replies expire or are too old, as do messages of a
    relay, and a client cancels the task, with the owner being told of it or not. -/
inductive Loss {β : Type} (s : Execution β) : Execution β → Prop
  | record : Loss s { s with record := none }
  | reply : Loss s { s with replies := s.replies.tail }
  | message (i n : ℕ) : Loss s { s with
      relays := Function.update s.relays i { s.relays i with trimmed := n } }
  | cancel : Loss s (s.emit .cancel .cancel)

/-- The execution of a task by an instance. -/
inductive Execution.Step {β : Type} (deletes : Bool) (s t : Execution β) : Prop
  | owner (h : OwnerStep deletes s t)
  | submission {i : ℕ} (h : SubmissionStep s i t)
  | loss (h : Loss s t)

def execution (β : Type) (deletes : Bool) (taskId contextId instanceId : Text) :
    System (Execution β) Unit where
  init s := s = { taskId, contextId, instanceId }
  step s _ t := s.Step deletes t

end Hyperforge.A2a
