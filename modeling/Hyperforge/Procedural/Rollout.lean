import Hyperforge.HarnessSdk.ToolCalls
import Hyperforge.Procedural.Candidate
import Hyperforge.Procedural.Evolution

/-!
# Rollouts of a harness

`HarnessRollout` runs a fresh harness on a task and scores what the events of its root agent tell,
which it follows one by one (`observe`).

* `rollout_evidence`: whatever the harness emits, there is a scored rollout only if each call of a
  tool has been answered, the guidance is that of the graph and has not failed, and the turn has
  been completed; its trajectory is then what the root agent has emitted.
-/

namespace Hyperforge

def Exc.runtimeError (text : String) : Exc := ⟨"RuntimeError", text, true, false⟩

namespace Evolution

open Json hiding Tree
open JsonSchema (Object)
open HarnessSdk (HarnessToolCall jsonString)

variable {F C M S : Type}

/-! ## Events -/

/-- The status of a call of a tool in a trajectory. -/
inductive ToolStatus
  | completed
  | failed
  deriving DecidableEq

def ToolStatus.text : ToolStatus → String
  | completed => "completed"
  | failed => "failed"

/-- The type of an event, with its payload as far as rollouts read it. -/
inductive Emitted (F : Type)
  | toolRequested (call : HarnessToolCall F)
  | toolCompleted (callId tool : Str) (result : Json.Tree F)
  | toolFailed (callId tool : Str) (result : Json.Tree F)
  | proceduralGuidance (payload : Object F)
  | proceduralStep (payload : Object F)
  | turnCompleted (text : String)
  | turnFailed
  | turnInterrupted
  | llmFailed
  /-- An event of another type. -/
  | other

structure HarnessEvent (F : Type) where
  agentId : Option String
  parentAgentId : Option String
  emitted : Emitted F

/-- An entry of a trajectory. -/
inductive Entry (F : Type)
  | tool (callId tool : Str) (arguments : Object F) (outcome : Option (Json.Tree F × ToolStatus))
  | procedural (kind : String) (payload : Object F)
  | turnCompleted (text : String)

/-- The dictionary of an entry. -/
def Entry.tree : Entry F → Json.Tree F
  | .tool callId name arguments outcome =>
    .obj ([(.ofString "type", jsonString "tool"), (.ofString "call_id", .str callId),
      (.ofString "tool", .str name), (.ofString "arguments", .obj arguments)] ++
      outcome.toList.flatMap fun o =>
        [(.ofString "result", o.1), (.ofString "status", jsonString o.2.text)])
  | .procedural kind payload =>
    .obj [(.ofString "type", jsonString kind), (.ofString "payload", .obj payload)]
  | .turnCompleted text =>
    .obj [(.ofString "type", jsonString "turn.completed"),
      (.ofString "payload", .obj [(.ofString "text", jsonString text)])]

/-! ## Following the events -/

/-- What has been seen of a run: the pending calls come with the positions of their entries, which
    their results are added to. -/
structure Observed (F : Type) where
  events : List (Entry F) := []
  pending : List (Str × ℕ) := []
  seenCalls : List Str := []
  output : Option String := none
  guided : Bool := false

/-- A tool has answered a call: its result becomes part of the entry of the call. -/
def finishCall (s : Observed F) (callId tool : Str) (result : Json.Tree F) (status : ToolStatus) :
    Except Exc (Observed F) :=
  match (s.pending.lookup callId).bind fun i => s.events[i]?.map (i, ·) with
  | some (i, .tool callId' tool' arguments _) =>
    if tool' = tool then
      .ok { s with
        events := s.events.set i (.tool callId' tool' arguments (some (result, status)))
        pending := pop callId s.pending }
    else .error (.valueError "Unmatched tool result")
  | _ => .error (.valueError "Unmatched tool result")

/-- `payload.get(key) == text` -/
def gives (payload : Object F) (key text : String) : Bool :=
  match payload.lookup (.ofString key) with
  | some (.str value) => value = .ofString text
  | _ => false

/-- One event of the root agent. -/
def observe (fingerprint : String) (s : Observed F) : Emitted F → Except Exc (Observed F)
  | .turnFailed => .error (.runtimeError "Harness rollout failed: turn.failed")
  | .turnInterrupted => .error (.runtimeError "Harness rollout failed: turn.interrupted")
  | .llmFailed => .error (.runtimeError "Harness rollout failed: llm.failed")
  | .toolRequested call =>
    match call.id with
    | none | some [] => .error (.valueError "Missing or duplicate tool call ID")
    | some callId =>
      if callId ∈ s.seenCalls then .error (.valueError "Missing or duplicate tool call ID")
      else .ok { s with
        seenCalls := s.seenCalls ++ [callId]
        pending := assign callId s.events.length s.pending
        events := s.events ++ [.tool callId call.name call.arguments none] }
  | .toolCompleted callId tool result => finishCall s callId tool result .completed
  | .toolFailed callId tool result => finishCall s callId tool result .failed
  | .proceduralGuidance payload =>
    if !gives payload "graph_version" fingerprint then
      .error (.valueError "Procedural event does not match supplied graph")
    else if !gives payload "status" "completed" then
      .error (.runtimeError "Procedural guidance failed; unguided fallback is not evaluable")
    else .ok { s with
      guided := true
      events := s.events ++ [.procedural "procedural.guidance" payload] }
  | .proceduralStep payload =>
    if !gives payload "graph_version" fingerprint then
      .error (.valueError "Procedural event does not match supplied graph")
    else .ok { s with events := s.events ++ [.procedural "procedural.step" payload] }
  | .turnCompleted text =>
    .ok { s with output := some text, events := s.events ++ [.turnCompleted text] }
  | .other => .ok s

/-! ## The rollout -/

/-- What a run has used. -/
structure Usage (F : Type) where
  toolCalls : F
  turns : F
  inputTokens : F
  outputTokens : F

/-- A harness: its configuration, what makes it fresh or not, and its run on a query, with the
    configuration at the time of each event and an exception that ends it. -/
structure Harness (F C M : Type) where
  agentId : String
  proceduralGuidance : Option C
  conversation : Option M
  messages : List M
  pendingMessages : List M
  proceduralTrajectory : List M
  storedConversation : Option M
  run : String → List (Option C × HarnessEvent F) × Option Exc
  usage : Usage F
  wallTimeSeconds : F

/-- The caller's functions, the graphs of configurations, and the validation of a
    `ScoredRollout`. -/
structure RolloutEnv (F C M S : Type) where
  factory : ProceduralGraph → String → Json.Tree F → Except Exc (Harness F C M)
  scorer : EvaluationTask (Json.Tree F) → String → List (Entry F) → Except Exc S
  graph : C → ProceduralGraph
  sha256 : GraphData → String
  scoredRollout : ScoredRollout (Json.Tree F) S → Except Exc Unit

namespace Harness

variable (harness : Harness F C M)

/-- The event is one of the root agent. -/
def IsRoot (e : HarnessEvent F) : Prop :=
  e.agentId = some harness.agentId ∧ e.parentAgentId = none

instance (e : HarnessEvent F) : Decidable (harness.IsRoot e) := by
  unfold IsRoot
  infer_instance

def isFresh : Bool :=
  harness.conversation.isNone && harness.messages.isEmpty && harness.pendingMessages.isEmpty &&
    harness.proceduralTrajectory.isEmpty

/-- One event of a run. -/
def observeEvent [DecidableEq C] (fingerprint : String) (s : Observed F)
    (e : Option C × HarnessEvent F) : Except Exc (Observed F) :=
  if e.1 ≠ harness.proceduralGuidance then
    .error (.valueError "Harness changed procedural guidance configuration")
  else if ¬ harness.IsRoot e.2 then .ok s
  else observe fingerprint s e.2.emitted

def metrics : Json.Tree F :=
  .obj [(.ofString "tool_calls", .float harness.usage.toolCalls),
    (.ofString "turns", .float harness.usage.turns),
    (.ofString "input_tokens", .float harness.usage.inputTokens),
    (.ofString "output_tokens", .float harness.usage.outputTokens),
    (.ofString "wall_time_seconds", .float harness.wallTimeSeconds)]

end Harness

/-- `HarnessRollout.__call__` -/
def harnessRollout [DecidableEq C] (env : RolloutEnv F C M S) (graph : ProceduralGraph)
    (task : EvaluationTask (Json.Tree F)) :
    Except Exc (ScoredRollout (Json.Tree F) S) := do
  let harness ← env.factory graph task.query task.metadata
  let fingerprint := graph.fingerprint env.sha256
  if harness.proceduralGuidance.map (fun c => (env.graph c).fingerprint env.sha256) ≠
      some fingerprint then
    throw (.valueError "Harness requires procedural guidance matching the supplied graph")
  if !harness.isFresh then
    throw (.valueError ("Harness must be fresh: no conversation, loaded/queued messages or " ++
      "procedural trajectory"))
  if harness.storedConversation.isSome then
    throw (.valueError "Harness must be fresh: conversation already exists in storage")
  let (events, failure) := harness.run task.query
  let s ← events.foldlM (harness.observeEvent fingerprint) {}
  if let some e := failure then throw e
  let some output := s.output | throw unfinished
  if !s.pending.isEmpty || !s.guided then throw unfinished
  let score ← env.scorer task output s.events
  let rollout : ScoredRollout (Json.Tree F) S :=
    ⟨task.id, score, .arr (s.events.map Entry.tree), output, harness.metrics⟩
  env.scoredRollout rollout
  return rollout
where
  unfinished : Exc := .runtimeError ("Harness rollout requires completed guidance, a final " ++
    "output and paired tool results")

/-! ## What a rollout gives evidence of -/

/-- A call, with its tool and its result. -/
structure Answer (F : Type) where
  callId : Str
  tool : Str
  result : Json.Tree F
  status : ToolStatus

namespace Emitted

def answer : Emitted F → Option (Answer F)
  | toolCompleted callId tool result => some ⟨callId, tool, result, .completed⟩
  | toolFailed callId tool result => some ⟨callId, tool, result, .failed⟩
  | _ => none

def requestedId : Emitted F → Option Str
  | toolRequested call => call.id
  | _ => none

def text : Emitted F → Option String
  | turnCompleted text => some text
  | _ => none

/-- The entry of an event, with the answer that there is for its call. -/
def entry (answers : List (Answer F)) : Emitted F → Option (Entry F)
  | toolRequested call => some <| .tool (call.id.getD []) call.name call.arguments <|
      (answers.find? fun a => a.callId = call.id.getD []).map fun a => (a.result, a.status)
  | proceduralGuidance payload => some (.procedural "procedural.guidance" payload)
  | proceduralStep payload => some (.procedural "procedural.step" payload)
  | turnCompleted text => some (.turnCompleted text)
  | _ => none

end Emitted

/-- The answers of tools. -/
def answers (es : List (Emitted F)) : List (Answer F) := es.filterMap Emitted.answer

/-- The entries of some events, in their order, each call with its own result. -/
def trajectory (es : List (Emitted F)) : List (Entry F) :=
  es.filterMap (Emitted.entry (answers es))

/-- What the root agent has emitted in a run. -/
def Harness.rootEvents (harness : Harness F C M) (events : List (Option C × HarnessEvent F)) :
    List (Emitted F) :=
  (events.filter fun e => harness.IsRoot e.2).map fun e => e.2.emitted

/-- The evidence for a graph is complete. -/
structure Complete (fingerprint : String) (es : List (Emitted F)) : Prop where
  /-- The id of a call is new, and one answer follows, of the same tool. -/
  paired : ∀ before call after, es = before ++ .toolRequested call :: after →
    ∃ callId, call.id = some callId ∧ callId ≠ [] ∧
      callId ∉ (before ++ after).filterMap Emitted.requestedId ∧
      (∀ a ∈ answers before, a.callId ≠ callId) ∧
      ∃ result status,
        (answers after).filter (fun a => a.callId = callId) = [⟨callId, call.name, result, status⟩]
  step : ∀ payload, .proceduralStep payload ∈ es → gives payload "graph_version" fingerprint
  guidance : ∀ payload, .proceduralGuidance payload ∈ es →
    gives payload "graph_version" fingerprint ∧ gives payload "status" "completed"
  guided : ∃ payload, .proceduralGuidance payload ∈ es
  completed : ∃ text, .turnCompleted text ∈ es
  undisturbed : .turnFailed ∉ es ∧ .turnInterrupted ∉ es ∧ .llmFailed ∉ es

/-! ## What is kept of the events -/

/-- The calls are followed: those that are pending are the entries without a result. -/
structure FollowsCalls (es : List (Emitted F)) (s : Observed F) : Prop where
  seenCalls : s.seenCalls = es.filterMap Emitted.requestedId
  nodup : (es.filterMap Emitted.requestedId).Nodup
  named : ∀ call, .toolRequested call ∈ es → ∃ callId, call.id = some callId ∧ callId ≠ []
  once : ((answers es).map Answer.callId).Nodup
  matched : ∀ a ∈ answers es, ∃ call, .toolRequested call ∈ es ∧ call.id = some a.callId ∧
    call.name = a.tool
  events : s.events = trajectory es
  pending : ∀ callId i, s.pending.lookup callId = some i ↔
    ∃ name arguments, s.events[i]? = some (.tool callId name arguments none)

/-- The other events are followed. -/
structure FollowsChecks (fingerprint : String) (es : List (Emitted F)) (s : Observed F) : Prop where
  output : s.output = (es.filterMap Emitted.text).getLast?
  guided : s.guided ↔ ∃ payload, .proceduralGuidance payload ∈ es
  step : ∀ payload, .proceduralStep payload ∈ es → gives payload "graph_version" fingerprint
  guidance : ∀ payload, .proceduralGuidance payload ∈ es →
    gives payload "graph_version" fingerprint ∧ gives payload "status" "completed"
  undisturbed : .turnFailed ∉ es ∧ .turnInterrupted ∉ es ∧ .llmFailed ∉ es

variable {fingerprint : String} {es : List (Emitted F)} {e : Emitted F} {s t : Observed F}
  {a : Answer F} {call : HarnessToolCall F} {callId name : Str} {entry : Entry F}

theorem answers_append (es es' : List (Emitted F)) :
    answers (es ++ es') = answers es ++ answers es' :=
  List.filterMap_append

theorem answers_concat_of_none (h : e.answer = none) : answers (es ++ [e]) = answers es := by
  rw [answers_append, answers, answers, List.filterMap_cons, h]
  exact List.append_nil _

/-- An event that is not an answer adds its entry. -/
theorem trajectory_concat (h : e.answer = none) :
    trajectory (es ++ [e]) = trajectory es ++ (e.entry (answers es)).toList := by
  rw [trajectory, answers_concat_of_none h, List.filterMap_append, trajectory,
    List.filterMap_cons, List.filterMap_nil]
  cases e.entry (answers es) <;> rfl

/-- The entries of calls are those of the calls that are requested. -/
theorem tool_mem_trajectory {arguments : Object F} {outcome : Option (Json.Tree F × ToolStatus)}
    (h : .tool callId name arguments outcome ∈ trajectory es) :
    ∃ call, .toolRequested call ∈ es ∧ call.id.getD [] = callId ∧ call.name = name ∧
      outcome =
        ((answers es).find? fun a => a.callId = callId).map fun a => (a.result, a.status) := by
  obtain ⟨e, he, hentry⟩ := List.mem_filterMap.1 h
  cases e with
  | toolRequested call =>
    cases hentry
    exact ⟨call, he, rfl, rfl, rfl⟩
  | _ => cases hentry

/-! ### Events that are no calls -/

/-- What adds an entry that is not one of a call leaves the calls as they are. -/
theorem FollowsCalls.concat (h : FollowsCalls es s) (hrequest : ∀ call, e ≠ .toolRequested call)
    (hanswer : e.answer = none) (hseen : t.seenCalls = s.seenCalls)
    (hpending : t.pending = s.pending)
    (hevents : t.events = s.events ++ (e.entry (answers es)).toList) :
    FollowsCalls (es ++ [e]) t := by
  have hid : e.requestedId = none := by
    cases e with
    | toolRequested call => exact absurd rfl (hrequest call)
    | _ => rfl
  have hids : (es ++ [e]).filterMap Emitted.requestedId = es.filterMap Emitted.requestedId := by
    rw [List.filterMap_append, List.filterMap_cons, hid]
    exact List.append_nil _
  have hmem : ∀ call, .toolRequested call ∈ es ++ [e] ↔ .toolRequested call ∈ es := by
    intro call
    rw [List.mem_append, List.mem_singleton, or_iff_left (hrequest call).symm]
  have htool : ∀ callId name arguments,
      e.entry (answers es) ≠ some (.tool callId name arguments none) := by
    intro callId name arguments hentry
    cases e with
    | toolRequested call => exact hrequest call rfl
    | _ => cases hentry
  constructor
  · rw [hids, hseen, h.seenCalls]
  · rw [hids]
    exact h.nodup
  · exact fun call hcall => h.named call ((hmem call).1 hcall)
  · rw [answers_concat_of_none hanswer]
    exact h.once
  · intro a ha
    rw [answers_concat_of_none hanswer] at ha
    obtain ⟨call, hcall, hmatched⟩ := h.matched a ha
    exact ⟨call, (hmem call).2 hcall, hmatched⟩
  · rw [trajectory_concat hanswer, hevents, h.events]
  · intro callId i
    rw [hpending, h.pending, hevents]
    refine exists₂_congr fun name arguments => ?_
    rcases Nat.lt_or_ge i s.events.length with hi | hi
    · rw [List.getElem?_append_left hi]
    · rw [List.getElem?_eq_none hi, List.getElem?_append_right hi]
      refine iff_of_false (fun hnone => by cases hnone) fun hsome => ?_
      rcases hentry : e.entry (answers es) with _ | x
      · rw [hentry] at hsome
        cases hsome
      · rw [hentry] at hsome
        refine htool callId name arguments (hentry.trans ?_)
        rw [List.getElem?_eq_some_iff] at hsome
        obtain ⟨hlt, hx⟩ := hsome
        simpa using hx

/-! ### Requested calls -/

theorem observe_toolRequested (h : observe fingerprint s (.toolRequested call) = .ok t) :
    ∃ callId, call.id = some callId ∧ callId ≠ [] ∧ callId ∉ s.seenCalls ∧
      t = { s with
        seenCalls := s.seenCalls ++ [callId]
        pending := assign callId s.events.length s.pending
        events := s.events ++ [.tool callId call.name call.arguments none] } := by
  rw [observe] at h
  rcases hid : call.id with _ | _ | ⟨c, cs⟩ <;> rw [hid] at h
  · cases h
  · cases h
  · dsimp only at h
    split_ifs at h with hseen
    cases h
    exact ⟨c :: cs, rfl, List.cons_ne_nil _ _, hseen, rfl⟩

/-- A new call is pending. -/
theorem FollowsCalls.request (h : FollowsCalls es s) (hid : call.id = some callId)
    (hne : callId ≠ []) (hnew : callId ∉ s.seenCalls) :
    FollowsCalls (es ++ [.toolRequested call]) { s with
      seenCalls := s.seenCalls ++ [callId]
      pending := assign callId s.events.length s.pending
      events := s.events ++ [.tool callId call.name call.arguments none] } := by
  have hrequested : (Emitted.toolRequested call).requestedId = some callId := hid
  have hids : (es ++ [Emitted.toolRequested call]).filterMap Emitted.requestedId =
      es.filterMap Emitted.requestedId ++ [callId] := by
    rw [List.filterMap_append, List.filterMap_cons, hrequested]
    rfl
  have hmem : ∀ call', .toolRequested call' ∈ es ++ [.toolRequested call] ↔
      .toolRequested call' ∈ es ∨ call' = call := by
    intro call'
    rw [List.mem_append, List.mem_singleton, Emitted.toolRequested.injEq]
  rw [h.seenCalls] at hnew
  have hfresh : ∀ call', .toolRequested call' ∈ es → call'.id ≠ some callId := by
    intro call' hcall' hid'
    exact hnew (List.mem_filterMap.2 ⟨_, hcall', hid'⟩)
  have hnone : (answers es).find? (fun a => a.callId = callId) = none := by
    rw [List.find?_eq_none]
    intro a ha heq
    obtain ⟨call', hcall', hid', -⟩ := h.matched a ha
    exact hfresh call' hcall' (hid'.trans (congrArg some (of_decide_eq_true heq)))
  constructor
  · rw [hids, h.seenCalls]
  · rw [hids, List.nodup_append]
    refine ⟨h.nodup, List.nodup_singleton _, fun x hx y hy => ?_⟩
    rw [List.mem_singleton.1 hy]
    exact fun heq => hnew (heq ▸ hx)
  · intro call' hcall'
    rcases (hmem call').1 hcall' with hcall' | rfl
    · exact h.named call' hcall'
    · exact ⟨callId, hid, hne⟩
  · rw [answers_concat_of_none rfl]
    exact h.once
  · intro a ha
    rw [answers_concat_of_none rfl] at ha
    obtain ⟨call', hcall', hmatched⟩ := h.matched a ha
    exact ⟨call', (hmem call').2 (.inl hcall'), hmatched⟩
  · rw [trajectory_concat rfl, Emitted.entry, hid, Option.getD_some, hnone, h.events]
    rfl
  · intro callId' i
    dsimp only
    rw [lookup_assign]
    rcases Nat.lt_trichotomy i s.events.length with hi | rfl | hi
    · rw [List.getElem?_append_left hi, ← h.pending]
      by_cases heq : callId = callId'
      · -- An older entry is not one of the new call.
        rw [if_pos heq]
        refine iff_of_false (fun hlength => hi.ne' (Option.some.inj hlength)) fun hpending => ?_
        obtain ⟨name, arguments, hentry⟩ := (h.pending _ _).1 hpending
        rw [h.events] at hentry
        obtain ⟨call', hcall', hget, -⟩ := tool_mem_trajectory (List.mem_of_getElem? hentry)
        obtain ⟨id', hid', -⟩ := h.named call' hcall'
        rw [hid', Option.getD_some] at hget
        exact hfresh call' hcall' (hid'.trans (congrArg some (hget.trans heq.symm)))
      · rw [if_neg heq]
    · rw [List.getElem?_append_right (Nat.le_refl _), Nat.sub_self, List.getElem?_cons_zero]
      by_cases heq : callId = callId'
      · rw [if_pos heq]
        exact iff_of_true rfl ⟨call.name, call.arguments, heq ▸ rfl⟩
      · rw [if_neg heq, h.pending, List.getElem?_eq_none (Nat.le_refl _)]
        refine iff_of_false (fun ⟨_, _, hnone⟩ => by cases hnone) fun ⟨_, _, hsome⟩ => ?_
        exact heq (Entry.tool.inj (Option.some.inj hsome)).1
    · have hge : (s.events ++ [.tool callId call.name call.arguments none])[i]? = none := by
        rw [List.getElem?_eq_none_iff, List.length_append, List.length_singleton]
        exact hi
      rw [hge]
      refine iff_of_false (fun hlookup => ?_) fun ⟨_, _, hnone⟩ => by cases hnone
      split_ifs at hlookup with heq
      · exact hi.ne (Option.some.inj hlookup)
      · obtain ⟨_, _, hentry⟩ := (h.pending _ _).1 hlookup
        rw [List.getElem?_eq_none hi.le] at hentry
        cases hentry

/-! ### Answers -/

/-- The entry of a call gets its result. -/
def Entry.finish (a : Answer F) : Entry F → Entry F
  | .tool callId name arguments none =>
    .tool callId name arguments (if callId = a.callId then some (a.result, a.status) else none)
  | x => x

theorem entry_concat (as : List (Answer F)) (a : Answer F) (e : Emitted F) :
    e.entry (as ++ [a]) = (e.entry as).map (Entry.finish a) := by
  cases e with
  | toolRequested call =>
    rw [Emitted.entry, Emitted.entry, List.find?_append, Option.map_some]
    rcases hfind : as.find? (fun a => a.callId = call.id.getD []) with _ | b
    · rw [hfind, Option.none_or, List.find?_singleton, Option.map_none, Entry.finish]
      by_cases heq : call.id.getD [] = a.callId
      · rw [if_pos heq, if_pos (decide_eq_true heq.symm)]
        rfl
      · rw [if_neg heq, if_neg (by simpa using Ne.symm heq)]
        rfl
    · rw [hfind]
      rfl
  | _ => rfl

/-- An answer finishes the entry of its call. -/
theorem trajectory_concat_answer (h : e.answer = some a) :
    answers (es ++ [e]) = answers es ++ [a] ∧
      trajectory (es ++ [e]) = (trajectory es).map (Entry.finish a) := by
  have hanswers : answers (es ++ [e]) = answers es ++ [a] := by
    rw [answers_append, answers, answers, List.filterMap_cons, h]
    rfl
  refine ⟨hanswers, ?_⟩
  have hnone : e.entry (answers es ++ [a]) = none := by
    cases e with
    | toolCompleted | toolFailed => rfl
    | _ => cases h
  rw [trajectory, hanswers, List.filterMap_append, List.filterMap_cons, hnone, List.filterMap_nil,
    List.append_nil, trajectory, List.map_filterMap]
  exact congrArg (List.filterMap · es) (funext fun e => entry_concat _ a e)

theorem set_eq_map {α : Type} {f : α → α} {l : List α} {i : ℕ} {x : α} (h : l[i]? = some x)
    (hfix : ∀ j ≠ i, ∀ y, l[j]? = some y → f y = y) : l.set i (f x) = l.map f := by
  refine List.ext_getElem? fun j => ?_
  rw [List.getElem?_map]
  by_cases hij : i = j
  · rw [← hij, List.getElem?_set_self', h]
    rfl
  · rw [List.getElem?_set_ne hij]
    rcases hj : l[j]? with _ | y
    · rfl
    · rw [Option.map_some, hfix j (Ne.symm hij) y hj]

theorem finishCall_eq_ok {result : Json.Tree F} {status : ToolStatus}
    (h : finishCall s callId name result status = .ok t) :
    ∃ i callId' arguments outcome, s.pending.lookup callId = some i ∧
      s.events[i]? = some (.tool callId' name arguments outcome) ∧
      t = { s with
        events := s.events.set i (.tool callId' name arguments (some (result, status)))
        pending := pop callId s.pending } := by
  rw [finishCall] at h
  rcases hpending : s.pending.lookup callId with _ | i
  · rw [hpending] at h
    cases h
  · rw [hpending, Option.bind_some] at h
    rcases hentry : s.events[i]? with _ | ⟨callId', name', arguments, outcome⟩ | _ | _ <;>
      rw [hentry] at h
    · cases h
    · rw [Option.map_some] at h
      dsimp only at h
      split_ifs at h with hname
      cases h
      exact ⟨i, callId', arguments, outcome, rfl, hname ▸ hentry, hname ▸ rfl⟩
    · cases h
    · cases h

/-- An entry without a result gets none but that of its own call. -/
theorem finish_eq_open {x : Entry F} {arguments : Object F} :
    x.finish a = .tool callId name arguments none ↔
      x = .tool callId name arguments none ∧ callId ≠ a.callId := by
  rcases x with ⟨callId', name', arguments', _ | outcome⟩ | _ | _
  · rw [Entry.finish]
    by_cases heq : callId' = a.callId
    · rw [if_pos heq]
      refine iff_of_false (fun h => by cases h) fun ⟨h, hne⟩ => hne ?_
      cases h
      exact heq
    · rw [if_neg heq]
      refine ⟨fun h => ⟨h, ?_⟩, And.left⟩
      cases h
      exact heq
  · exact iff_of_false (fun h => by cases h) fun ⟨h, _⟩ => by cases h
  · exact iff_of_false (fun h => by cases h) fun ⟨h, _⟩ => by cases h
  · exact iff_of_false (fun h => by cases h) fun ⟨h, _⟩ => by cases h

/-- An answer belongs to a call that is pending. -/
theorem FollowsCalls.answer (h : FollowsCalls es s) (he : e.answer = some a)
    (hfinish : finishCall s a.callId a.tool a.result a.status = .ok t) :
    FollowsCalls (es ++ [e]) t := by
  obtain ⟨i, callId, arguments, outcome, hpending, hentry, rfl⟩ := finishCall_eq_ok hfinish
  -- The entry that is pending is the one of the call, without a result.
  obtain ⟨name, arguments', hopen⟩ := (h.pending _ _).1 hpending
  obtain ⟨rfl, rfl, rfl, rfl⟩ := Entry.tool.inj (Option.some.inj (hentry.symm.trans hopen))
  obtain ⟨hanswers, htrajectory⟩ := @trajectory_concat_answer _ es _ _ he
  have hmember := List.mem_of_getElem? hopen
  rw [h.events] at hmember
  obtain ⟨call, hcall, hget, hname, hnone⟩ := tool_mem_trajectory hmember
  have hfind := Option.map_eq_none_iff.1 hnone.symm
  have hid : call.id = some a.callId := by
    obtain ⟨id, hid, -⟩ := h.named call hcall
    rw [hid, Option.getD_some] at hget
    rw [hid, hget]
  have hids : (es ++ [e]).filterMap Emitted.requestedId = es.filterMap Emitted.requestedId := by
    have hrequested : e.requestedId = none := by
      cases e with
      | toolRequested call => cases he
      | _ => rfl
    rw [List.filterMap_append, List.filterMap_cons, hrequested]
    exact List.append_nil _
  have hmem : ∀ call', .toolRequested call' ∈ es ++ [e] ↔ .toolRequested call' ∈ es := by
    intro call'
    rw [List.mem_append, List.mem_singleton, or_iff_left]
    rintro rfl
    cases he
  have hset : s.events.set i (.tool a.callId a.tool arguments (some (a.result, a.status))) =
      s.events.map (Entry.finish a) := by
    have hfinished : Entry.finish a (.tool a.callId a.tool arguments none) =
        .tool a.callId a.tool arguments (some (a.result, a.status)) := by
      rw [Entry.finish, if_pos rfl]
    rw [← hfinished]
    refine set_eq_map hopen fun j hj x hx => ?_
    rcases x with ⟨callId', name', arguments', _ | outcome⟩ | _ | _
    · rw [Entry.finish, if_neg]
      rintro rfl
      have hpending' := (h.pending _ _).2 ⟨_, _, hx⟩
      exact hj (Option.some.inj (hpending'.symm.trans hpending))
    · rfl
    · rfl
    · rfl
  constructor
  · rw [hids]
    exact h.seenCalls
  · rw [hids]
    exact h.nodup
  · exact fun call' hcall' => h.named call' ((hmem call').1 hcall')
  · rw [hanswers, List.map_append, List.nodup_append]
    refine ⟨h.once, List.nodup_singleton _, fun x hx y hy heq => ?_⟩
    obtain ⟨b, hb, rfl⟩ := List.mem_map.1 hx
    rw [List.mem_singleton.1 hy] at heq
    exact List.find?_eq_none.1 hfind b hb (decide_eq_true heq)
  · intro b hb
    rw [hanswers, List.mem_append, List.mem_singleton] at hb
    rcases hb with hb | rfl
    · obtain ⟨call', hcall', hmatched⟩ := h.matched b hb
      exact ⟨call', (hmem call').2 hcall', hmatched⟩
    · exact ⟨call, (hmem call).2 hcall, hid, hname⟩
  · rw [htrajectory, ← h.events]
    exact hset
  · intro callId' j
    dsimp only
    rw [hset, lookup_pop, List.getElem?_map]
    simp only [Option.map_eq_some_iff, finish_eq_open]
    by_cases heq : callId' = a.callId
    · rw [if_pos heq]
      exact iff_of_false (fun hnone => by cases hnone) fun ⟨_, _, _, _, _, hne⟩ => hne heq
    · rw [if_neg heq, h.pending]
      refine exists₂_congr fun name arguments => ?_
      exact ⟨fun hsome => ⟨_, hsome, rfl, heq⟩, fun ⟨x, hx, hx', _⟩ => hx' ▸ hx⟩

/-! ### All events -/

theorem FollowsChecks.concat (h : FollowsChecks fingerprint es s)
    (houtput : t.output = e.text.or s.output)
    (hguided : t.guided ↔ s.guided ∨ ∃ payload, e = .proceduralGuidance payload)
    (hstep : ∀ payload, e = .proceduralStep payload → gives payload "graph_version" fingerprint)
    (hguidance : ∀ payload, e = .proceduralGuidance payload →
      gives payload "graph_version" fingerprint ∧ gives payload "status" "completed")
    (hundisturbed : e ≠ .turnFailed ∧ e ≠ .turnInterrupted ∧ e ≠ .llmFailed) :
    FollowsChecks fingerprint (es ++ [e]) t := by
  have hmem : ∀ x, x ∈ es ++ [e] ↔ x ∈ es ∨ e = x := by
    intro x
    rw [List.mem_append, List.mem_singleton, eq_comm]
  constructor
  · rw [houtput, h.output, List.filterMap_append, List.getLast?_append]
    rcases e.text.eq_none_or_eq_some with htext | ⟨text, htext⟩
    · rw [List.filterMap_cons, htext]
      rfl
    · rw [List.filterMap_cons, htext]
      rfl
  · simp only [hmem, exists_or]
    rw [hguided, h.guided]
  · exact fun payload hpayload => ((hmem _).1 hpayload).elim (h.step payload) (hstep payload)
  · exact fun payload hpayload =>
      ((hmem _).1 hpayload).elim (h.guidance payload) (hguidance payload)
  · simp only [hmem, not_or]
    exact ⟨⟨h.undisturbed.1, hundisturbed.1⟩, ⟨h.undisturbed.2.1, hundisturbed.2.1⟩,
      h.undisturbed.2.2, hundisturbed.2.2⟩

/-- What an event does that is neither of a procedure nor a final text. -/
theorem FollowsChecks.concat_of_calls (h : FollowsChecks fingerprint es s)
    (houtput : t.output = s.output) (hguided : t.guided = s.guided) (htext : e.text = none)
    (hprocedural : ∀ payload, e ≠ .proceduralStep payload ∧ e ≠ .proceduralGuidance payload)
    (hundisturbed : e ≠ .turnFailed ∧ e ≠ .turnInterrupted ∧ e ≠ .llmFailed) :
    FollowsChecks fingerprint (es ++ [e]) t := by
  refine h.concat ?_ ?_ (fun payload he => absurd he (hprocedural payload).1)
    (fun payload he => absurd he (hprocedural payload).2) hundisturbed
  · rw [houtput, htext, Option.none_or]
  · rw [hguided, or_iff_left]
    rintro ⟨payload, he⟩
    exact (hprocedural payload).2 he

/-- An event is followed, if it is not refused. -/
theorem follows_observe (hcalls : FollowsCalls es s) (hchecks : FollowsChecks fingerprint es s)
    (h : observe fingerprint s e = .ok t) :
    FollowsCalls (es ++ [e]) t ∧ FollowsChecks fingerprint (es ++ [e]) t := by
  cases e with
  | toolRequested call =>
    obtain ⟨callId, hid, hne, hnew, rfl⟩ := observe_toolRequested h
    exact ⟨hcalls.request hid hne hnew,
      hchecks.concat_of_calls rfl rfl rfl (by simp) (by simp)⟩
  | toolCompleted callId tool result =>
    refine ⟨hcalls.answer rfl h, ?_⟩
    obtain ⟨i, callId', arguments, outcome, -, -, rfl⟩ := finishCall_eq_ok h
    exact hchecks.concat_of_calls rfl rfl rfl (by simp) (by simp)
  | toolFailed callId tool result =>
    refine ⟨hcalls.answer rfl h, ?_⟩
    obtain ⟨i, callId', arguments, outcome, -, -, rfl⟩ := finishCall_eq_ok h
    exact hchecks.concat_of_calls rfl rfl rfl (by simp) (by simp)
  | proceduralGuidance payload =>
    rw [observe] at h
    split_ifs at h with hversion hstatus
    cases h
    refine ⟨hcalls.concat (by simp) rfl rfl rfl rfl, hchecks.concat rfl (by simp) (by simp) ?_
      (by simp)⟩
    rintro _ ⟨⟩
    simpa using And.intro hversion hstatus
  | proceduralStep payload =>
    rw [observe] at h
    split_ifs at h with hversion
    cases h
    refine ⟨hcalls.concat (by simp) rfl rfl rfl rfl, hchecks.concat rfl (by simp) ?_ (by simp)
      (by simp)⟩
    rintro _ ⟨⟩
    simpa using hversion
  | turnCompleted text =>
    cases h
    exact ⟨hcalls.concat (by simp) rfl rfl rfl rfl,
      hchecks.concat rfl (by simp) (by simp) (by simp) (by simp)⟩
  | other =>
    cases h
    exact ⟨hcalls.concat (by simp) rfl rfl rfl (by simp [Emitted.entry]),
      hchecks.concat_of_calls rfl rfl rfl (by simp) (by simp)⟩
  | _ => cases h

theorem follows_nil :
    FollowsCalls (F := F) [] {} ∧ FollowsChecks (F := F) fingerprint [] {} := by
  refine ⟨⟨rfl, .nil, fun _ h => absurd h List.not_mem_nil, .nil,
    fun _ h => absurd h List.not_mem_nil, rfl, fun callId i => ?_⟩, ⟨rfl, by simp, by simp,
    by simp, by simp⟩⟩
  exact iff_of_false (fun h => by cases h) fun ⟨_, _, h⟩ => by cases h

theorem foldlM_append_eq_ok {α β ε : Type} {f : β → α → Except ε β} {xs ys : List α} {b c : β} :
    (xs ++ ys).foldlM f b = .ok c ↔ ∃ d, xs.foldlM f b = .ok d ∧ ys.foldlM f d = .ok c := by
  rw [List.foldlM_append]
  rcases xs.foldlM f b with e | d
  · exact iff_of_false (fun h => by cases h) fun ⟨_, h, _⟩ => by cases h
  · refine ⟨fun h => ⟨d, rfl, h⟩, ?_⟩
    rintro ⟨_, ⟨⟩, h⟩
    exact h

/-- All events are followed, if none is refused. -/
theorem follows_foldlM (h : es.foldlM (observe fingerprint) {} = .ok s) :
    FollowsCalls es s ∧ FollowsChecks fingerprint es s := by
  induction es using List.reverseRecOn generalizing s with
  | nil =>
    cases h
    exact follows_nil
  | append_singleton es e ih =>
    obtain ⟨t, ht, he⟩ := foldlM_append_eq_ok.1 h
    rw [List.foldlM_cons] at he
    obtain ⟨hcalls, hchecks⟩ := ih ht
    exact follows_observe hcalls hchecks ((bind_pure _).symm.trans he)

/-! ## The evidence -/

theorem filter_eq_singleton {α β : Type} [DecidableEq β] {f : α → β} {l : List α} {x : α}
    (h : (l.map f).Nodup) (hx : x ∈ l) : l.filter (fun y => f y = f x) = [x] := by
  induction l with
  | nil => cases hx
  | cons y l ih =>
    rw [List.map_cons, List.nodup_cons] at h
    rcases List.mem_cons.1 hx with rfl | hx
    · rw [List.filter_cons_of_pos (by exact decide_eq_true rfl), List.filter_eq_nil_iff.2]
      intro z hz heq
      exact h.1 (of_decide_eq_true heq ▸ List.mem_map_of_mem hz)
    · rw [List.filter_cons_of_neg, ih h.2 hx]
      intro heq
      exact h.1 (of_decide_eq_true heq ▸ List.mem_map_of_mem hx)

/-- If no call is left pending, each has its answer. -/
theorem exists_answer (h : FollowsCalls es s) (hpending : s.pending = [])
    (hcall : .toolRequested call ∈ es) (hid : call.id = some callId) :
    ∃ a ∈ answers es, a.callId = callId := by
  have hentry : (Emitted.toolRequested call).entry (answers es) = some (.tool callId call.name
      call.arguments (((answers es).find? fun a => a.callId = callId).map
        fun a => (a.result, a.status))) := by
    rw [Emitted.entry, hid]
    rfl
  have hmem := List.mem_filterMap.2 ⟨_, hcall, hentry⟩
  rcases hfind : (answers es).find? (fun a => a.callId = callId) with _ | a
  · rw [hfind] at hmem
    obtain ⟨i, hi⟩ := List.getElem?_of_mem hmem
    rw [← trajectory, ← h.events] at hi
    have hlookup := (h.pending callId i).2 ⟨_, _, hi⟩
    rw [hpending] at hlookup
    cases hlookup
  · exact ⟨a, List.mem_of_find?_eq_some hfind, by simpa using List.find?_some hfind⟩

theorem complete_of_follows (hfold : es.foldlM (observe fingerprint) {} = .ok s)
    (hpending : s.pending = []) (hguided : s.guided) (houtput : s.output.isSome) :
    Complete fingerprint es := by
  obtain ⟨hcalls, hchecks⟩ := follows_foldlM hfold
  refine ⟨?_, hchecks.step, hchecks.guidance, hchecks.guided.1 hguided, ?_, hchecks.undisturbed⟩
  · rintro before call after rfl
    have hcall : .toolRequested call ∈ before ++ .toolRequested call :: after :=
      List.mem_append_right _ List.mem_cons_self
    obtain ⟨callId, hid, hne⟩ := hcalls.named call hcall
    have hrequested : (Emitted.toolRequested call).requestedId = some callId := hid
    have hnew : callId ∉ (before ++ after).filterMap Emitted.requestedId := by
      have hnodup := hcalls.nodup
      rw [List.filterMap_append, List.filterMap_cons, hrequested, List.nodup_middle,
        ← List.filterMap_append] at hnodup
      exact (List.nodup_cons.1 hnodup).1
    have hbefore : ∀ a ∈ answers before, a.callId ≠ callId := by
      rintro a ha rfl
      obtain ⟨t, ht, -⟩ := foldlM_append_eq_ok.1 hfold
      obtain ⟨call', hcall', hid', -⟩ := (follows_foldlM ht).1.matched a ha
      refine hnew (List.mem_filterMap.2 ⟨_, List.mem_append_left _ hcall', hid'⟩)
    refine ⟨callId, hid, hne, hnew, hbefore, ?_⟩
    obtain ⟨⟨callId', tool, result, status⟩, ha, rfl⟩ := exists_answer hcalls hpending hcall hid
    have hname : call.name = tool := by
      obtain ⟨call', hcall', hid', hname⟩ := hcalls.matched _ ha
      rcases List.mem_append.1 hcall' with hmem | hmem
      · exact absurd (List.mem_filterMap.2 ⟨_, List.mem_append_left _ hmem, hid'⟩) hnew
      · rcases List.mem_cons.1 hmem with heq | hmem
        · rw [← Emitted.toolRequested.inj heq]
          exact hname
        · exact absurd (List.mem_filterMap.2 ⟨_, List.mem_append_right _ hmem, hid'⟩) hnew
    have hone := filter_eq_singleton hcalls.once ha
    have hanswers : answers (before ++ .toolRequested call :: after) =
        answers before ++ answers after := answers_append _ _
    rw [hanswers, List.filter_append, List.filter_eq_nil_iff.2, List.nil_append] at hone
    · exact ⟨result, status, hname ▸ hone⟩
    · exact fun a ha heq => hbefore a ha (of_decide_eq_true heq)
  · obtain ⟨text, htext⟩ := Option.isSome_iff_exists.1 houtput
    rw [hchecks.output] at htext
    obtain ⟨e, he, htext⟩ := List.mem_filterMap.1 (List.mem_of_getLast? htext)
    cases e with
    | turnCompleted text => exact ⟨text, he⟩
    | _ => cases htext

/-- Only the events of the root agent are observed. -/
theorem foldlM_observeEvent [DecidableEq C] {harness : Harness F C M}
    {events : List (Option C × HarnessEvent F)}
    (h : events.foldlM (harness.observeEvent fingerprint) s = .ok t) :
    (harness.rootEvents events).foldlM (observe fingerprint) s = .ok t := by
  induction events generalizing s with
  | nil => exact h
  | cons e events ih =>
    rw [List.foldlM_cons, Harness.observeEvent] at h
    rw [Harness.rootEvents, List.filter_cons]
    split_ifs at h with hguidance hroot
    · cases h
    · rw [if_pos (decide_eq_true hroot), List.map_cons, List.foldlM_cons]
      rcases hobserve : observe fingerprint s e.2.emitted with x | s'
      · rw [hobserve] at h
        cases h
      · rw [hobserve] at h
        exact ih h
    · rw [if_neg (by simpa using hroot)]
      exact ih h

/-- A rollout that is scored has complete evidence: its trajectory and its output are what the root
    agent has emitted. -/
theorem rollout_evidence [DecidableEq C] {env : RolloutEnv F C M S} {graph : ProceduralGraph}
    {task : EvaluationTask (Json.Tree F)} {r : ScoredRollout (Json.Tree F) S}
    (h : harnessRollout env graph task = .ok r) :
    ∃ harness, env.factory graph task.query task.metadata = .ok harness ∧
      Complete (graph.fingerprint env.sha256) (harness.rootEvents (harness.run task.query).1) ∧
      r.trajectory =
        .arr ((trajectory (harness.rootEvents (harness.run task.query).1)).map Entry.tree) ∧
      some r.output = ((harness.rootEvents (harness.run task.query).1).filterMap
        Emitted.text).getLast? := by
  rw [harnessRollout] at h
  rcases hfactory : env.factory graph task.query task.metadata with x | harness
  · rw [hfactory] at h
    cases h
  rw [hfactory] at h
  refine ⟨harness, rfl, ?_⟩
  simp only [bind, Except.bind, throw, throwThe, MonadExceptOf.throw] at h
  split_ifs at h with hguidance hfresh hstored
  rcases hfold : (harness.run task.query).1.foldlM (harness.observeEvent _) {} with x | s
  · rw [hfold] at h
    cases h
  rw [hfold] at h
  rcases hfailure : (harness.run task.query).2 with _ | x
  · rw [hfailure] at h
    dsimp only at h
    rcases houtput : s.output with _ | output
    · rw [houtput] at h
      cases h
    rw [houtput] at h
    dsimp only at h
    split_ifs at h with hunfinished
    rw [Bool.or_eq_true, not_or, Bool.not_eq_true', Bool.not_eq_true', Bool.not_eq_false,
      Bool.not_eq_false, List.isEmpty_iff] at hunfinished
    rcases hscore : env.scorer task output s.events with x | score <;> rw [hscore] at h
    · cases h
    dsimp only at h
    split at h
    · cases h
    · cases h
      have hroot := foldlM_observeEvent hfold
      obtain ⟨hcalls, hchecks⟩ := follows_foldlM hroot
      refine ⟨complete_of_follows hroot hunfinished.1 hunfinished.2 (houtput ▸ rfl), ?_, ?_⟩
      · rw [hcalls.events]
      · rw [← hchecks.output, houtput]
  · rw [hfailure] at h
    cases h

/-- A harness that asks a tool, among the events of another agent. -/
def askingHarness : Harness Unit Unit Unit where
  agentId := "root"
  proceduralGuidance := some ()
  conversation := none
  messages := []
  pendingMessages := []
  proceduralTrajectory := []
  storedConversation := none
  run _ := ([
    .proceduralGuidance [(.ofString "graph_version", jsonString "v"),
      (.ofString "status", jsonString "completed")],
    .toolRequested ⟨some (.ofString "a"), .ofString "lookup", []⟩,
    .toolCompleted (.ofString "a") (.ofString "lookup") .null,
    .turnCompleted "done"].flatMap fun e =>
      [(some (), ⟨some "root", none, e⟩), (some (), ⟨some "child", some "root", e⟩)], none)
  usage := ⟨(), (), (), ()⟩
  wallTimeSeconds := ()

def askingEnv : RolloutEnv Unit Unit Unit Unit where
  factory _ _ _ := .ok askingHarness
  scorer _ _ _ := .ok ()
  graph _ := skeletonGraph
  sha256 _ := "v"
  scoredRollout _ := .ok ()

def someTask : EvaluationTask (Json.Tree Unit) := ⟨"one", "question", .null, .null⟩

theorem rollout_evidence_asking :
    Complete "v" (askingHarness.rootEvents (askingHarness.run someTask.query).1) := by
  have hok : (harnessRollout askingEnv skeletonGraph someTask).isOk := by
    decide +kernel
  obtain ⟨r, hr⟩ : ∃ r, harnessRollout askingEnv skeletonGraph someTask =
      .ok r := by
    rcases h : harnessRollout askingEnv skeletonGraph someTask with e | r
    · rw [h] at hok
      cases hok
    · exact ⟨r, rfl⟩
  obtain ⟨harness, hfactory, hcomplete, -⟩ := rollout_evidence hr
  cases hfactory
  exact hcomplete

end Evolution

end Hyperforge
