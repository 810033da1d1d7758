import Hyperforge.HarnessSdk.Steps
import Hyperforge.Library.Runs
import Mathlib.Data.Finset.Card
import Mathlib.Data.List.ReduceOption
import Mathlib.Tactic.SplitIfs

/-!
# Loading a conversation

The messages of a conversation are read from the events of its log (`replay`). An output of a tool
that comes before the call that it is for waits for it, and then comes right after the message with
the call. An assistant message with calls that are not all answered is dropped, with the outputs
that follow it (`completeToolHistory`). `validateToolHistory` is what messages must pass to be sent
to the model.

* `replay_join`: what is read, given the runs of a log: its messages, each with the outputs that
  follow it.
-/

namespace Hyperforge.HarnessSdk

open Json hiding Tree

variable {F : Type}

/-! ## Messages -/

inductive MessageRole
  | system
  | user
  | assistant
  | tool
  deriving DecidableEq

/-- A message, as an object: two messages of a log with the same data are not the same. -/
structure HarnessMessage (F : Type) where
  object : ℕ
  role : MessageRole
  content : Str
  toolCalls : List (HarnessToolCall F)
  toolCallId : Option Str

inductive EventPayload (F : Type)
  | messageAdded (message : HarnessMessage F)
  | messagesAdded (messages : List (HarnessMessage F))
  | compacted (messages : List (HarnessMessage F))
  /-- An event that is not about messages. -/
  | other

structure HarnessEvent (F : Type) where
  parentAgentId : Option Str
  payload : EventPayload F

namespace HarnessMessage

variable (m : HarnessMessage F)

/-- The identifiers of its calls. -/
def callIds : List (Option Str) := m.toolCalls.map (·.id)

def Calls : Prop := m.role = .assistant ∧ m.toolCalls.isEmpty = false

instance : Decidable m.Calls := inferInstanceAs (Decidable (_ ∧ _))

/-- The identifiers of the outputs that complete the exchange. -/
def expected : Finset (Option Str) := (m.callIds.filter fun id => id.isSome).toFinset

end HarnessMessage

/-! ## The code -/

/-- What has been read of a log: the messages, and the outputs that wait for their calls. -/
structure Replay (F : Type) where
  messages : List (HarnessMessage F)
  pendingToolOutputs : Str → Option (HarnessMessage F)

/-- A call of one of the messages has the identifier. -/
def Called (messages : List (HarnessMessage F)) (id : Option Str) : Prop :=
  ∃ existing ∈ messages, id ∈ existing.callIds

instance (messages : List (HarnessMessage F)) (id : Option Str) : Decidable (Called messages id) :=
  inferInstanceAs (Decidable (∃ _ ∈ messages, _))

namespace Replay

/-- The outputs that have waited for the calls. -/
def popOutputs (r : Replay F) : List (Option Str) → Replay F
  | [] => r
  | none :: ids => popOutputs r ids
  | some id :: ids =>
    match r.pendingToolOutputs id with
    | some output =>
      popOutputs ⟨r.messages ++ [output], Function.update r.pendingToolOutputs id none⟩ ids
    | none => popOutputs r ids

def addMessage (r : Replay F) (message : HarnessMessage F) : Replay F :=
  if message.role = .tool ∧ ¬Called r.messages message.toolCallId then
    match message.toolCallId with
    | some id =>
      { r with pendingToolOutputs := Function.update r.pendingToolOutputs id (some message) }
    | none => r
  else popOutputs { r with messages := r.messages ++ [message] } message.callIds

def onEvent (r : Replay F) (event : HarnessEvent F) : Replay F :=
  if event.parentAgentId.isSome then r
  else
    match event.payload with
    | .messageAdded message => r.addMessage message
    | .messagesAdded messages => messages.foldl addMessage r
    | .compacted messages => ⟨messages, fun _ => none⟩
    | .other => r

end Replay

/-- The loop of `load` over the events. -/
def replay (events : List (HarnessEvent F)) : Replay F :=
  events.foldl Replay.onEvent ⟨[], fun _ => none⟩

def toolIds (outputs : List (HarnessMessage F)) : List (Option Str) := outputs.map (·.toolCallId)

/-- The outputs answer the calls. -/
def Completes (m : HarnessMessage F) (outputs : List (HarnessMessage F)) : Prop :=
  m.expected.Nonempty ∧ m.expected = (toolIds outputs).toFinset

instance (m : HarnessMessage F) (outputs : List (HarnessMessage F)) :
    Decidable (Completes m outputs) := inferInstanceAs (Decidable (_ ∧ _))

def isTool (m : HarnessMessage F) : Bool := m.role = .tool

/-- `_complete_tool_history` -/
def completeToolHistory : List (HarnessMessage F) → List (HarnessMessage F)
  | [] => []
  | message :: messages =>
    if message.Calls then
      let outputs := messages.takeWhile isTool
      if Completes message outputs then
        message :: (outputs ++ completeToolHistory (messages.dropWhile isTool))
      else completeToolHistory (messages.dropWhile isTool)
    else message :: completeToolHistory messages
termination_by messages => messages.length
decreasing_by
  all_goals
    have := (List.dropWhile_sublist isTool (l := messages)).length_le
    simp only [List.length_cons]
    omega

/-- The messages of a harness that has loaded the conversation. -/
def load (events : List (HarnessEvent F)) : List (HarnessMessage F) :=
  completeToolHistory (replay events).messages

/-! ### The check -/

/-- A call as it is sent to the model. -/
structure SentCall where
  id : Option Str
  name : Str
  arguments : Str

structure SentMessage where
  role : MessageRole
  content : Option Str
  /-- None if there is no such key. -/
  toolCalls : List SentCall
  toolCallId : Option Str

variable (φ : FloatFormat F)

/-- `NucliaModelClient._messages`, for one message. -/
def sentMessage (m : HarnessMessage F) : SentMessage :=
  match m.role with
  | .assistant =>
    { role := .assistant
      content := orNone m.content
      toolCalls := m.toolCalls.map fun call => ⟨call.id, call.name, spaced φ (.obj call.arguments)⟩
      toolCallId := none }
  | .tool => ⟨.tool, some m.content, [], m.toolCallId⟩
  | role => ⟨role, some m.content, [], none⟩

/-- Why a `ValueError` is raised. -/
inductive HistoryError
  | incompleteBefore (index : ℕ) (missing : Finset Str)
  | unexpectedOutput (index : ℕ) (id : Option Str)
  | incompleteAtEnd (missing : Finset Str)

/-- The identifiers that are neither missing nor empty. -/
def SentMessage.callIds (m : SentMessage) : Finset Str :=
  (m.toolCalls.filterMap fun call => call.id.filter fun id => !id.isEmpty).toFinset

/-- The loop of `_validate_tool_history`. -/
def validateFrom (index : ℕ) (pending : Finset Str) : List SentMessage → Except HistoryError Unit
  | [] => if pending.Nonempty then .error (.incompleteAtEnd pending) else .ok ()
  | message :: messages =>
    match message.role with
    | .assistant =>
      if pending.Nonempty then .error (.incompleteBefore index pending)
      else validateFrom (index + 1) message.callIds messages
    | .tool =>
      match message.toolCallId with
      | some id =>
        if id ∈ pending then validateFrom (index + 1) (pending.erase id) messages
        else .error (.unexpectedOutput index (some id))
      | none => .error (.unexpectedOutput index none)
    | _ =>
      if pending.Nonempty then .error (.incompleteBefore index pending)
      else validateFrom (index + 1) pending messages

def validateToolHistory (messages : List SentMessage) : Except HistoryError Unit :=
  validateFrom 0 ∅ messages

/-! ## What is asked for -/

/-- A message of a log: added by an event of its own, or given by a compaction. -/
structure Entry (F : Type) where
  message : HarnessMessage F
  added : Bool

def messagesOf (log : List (Entry F)) : List (HarnessMessage F) := log.map Entry.message

def writeEvent (log : List (Entry F)) (event : HarnessEvent F) : List (Entry F) :=
  if event.parentAgentId.isSome then log
  else
    match event.payload with
    | .messageAdded message => log ++ [⟨message, true⟩]
    | .messagesAdded messages => log ++ messages.map (⟨·, true⟩)
    | .compacted messages => messages.map (⟨·, false⟩)
    | .other => log

/-- The messages of the log of the root, since it has last been compacted. -/
def written (events : List (HarnessEvent F)) : List (Entry F) := events.foldl writeEvent []

/-- The outputs of an exchange that follow its assistant message: one for each of its calls. -/
def exchange (m : HarnessMessage F) (after : List (HarnessMessage F)) :
    Option (List (HarnessMessage F)) :=
  let outputs := after.take m.expected.card
  if m.Calls ∧ none ∉ m.callIds ∧ (∀ o ∈ outputs, o.role = .tool) ∧
      m.expected = (toolIds outputs).toFinset then
    some outputs
  else none

def keptHead (m : HarnessMessage F) (after : List (HarnessMessage F)) : List (HarnessMessage F) :=
  match m.role with
  | .system | .user => [m]
  | _ =>
    match exchange m after with
    | some outputs => m :: outputs
    | none => []

/-- What is to be kept of a log: the messages of the system and the user, and the exchanges that
    are complete. -/
def kept : List (HarnessMessage F) → List (HarnessMessage F)
  | [] => []
  | m :: ms => keptHead m ms ++ kept ms

def Restores (φ : FloatFormat F) (events : List (HarnessEvent F)) : Prop :=
  validateToolHistory ((load events).map (sentMessage φ)) = .ok () ∧
    (kept (messagesOf (written events))).Sublist (load events)

/-! ### Its condition -/

/-- An output that comes before its call. -/
def Waits (before : List (Entry F)) (e : Entry F) : Prop :=
  e.added ∧ e.message.role = .tool ∧ ¬Called (messagesOf before) e.message.toolCallId

instance (before : List (Entry F)) (e : Entry F) : Decidable (Waits before e) :=
  inferInstanceAs (Decidable (_ ∧ _ ∧ _))

/-- The calls of a message for which there are outputs that have waited. -/
def awaited (before : List (Entry F)) (e : Entry F) : Finset Str :=
  if e.added then
    e.message.callIds.reduceOption.toFinset.filter fun id =>
      ¬Called (messagesOf before) (some id) ∧
        ∃ x ∈ before, x.added ∧ x.message.role = .tool ∧ x.message.toolCallId = some id
  else ∅

/-- The outputs that follow a message, but for those that wait for another call. -/
def following (before : List (Entry F)) (e : Entry F) (after : List (Entry F)) :
    List (Entry F) :=
  (after.takeWhile fun x => isTool x.message).filter fun o => ¬Waits (before ++ [e]) o

def answers (before : List (Entry F)) (e : Entry F) (after : List (Entry F)) :
    Finset (Option Str) :=
  (awaited before e).image some ∪ (toolIds (messagesOf (following before e after))).toFinset

/-- The outputs for the message, moved or not, answer its calls. -/
def Answered (before : List (Entry F)) (e : Entry F) (after : List (Entry F)) : Prop :=
  e.message.expected.Nonempty ∧ e.message.expected = answers before e after

/-- A log that is repaired: once the outputs that have waited are with their calls, outputs only
    follow messages with calls; those that answer the calls answer each once, by its name; and
    exchanges that are complete are followed by no output for another call. -/
structure Repairable (log : List (Entry F)) : Prop where
  leading : ∀ e ∈ log.takeWhile (fun x => isTool x.message), e.added
  alone : ∀ before e after, log = before ++ e :: after → e.message.role ≠ .tool →
    ¬e.message.Calls → awaited before e = ∅ ∧ following before e after = []
  answered : ∀ before e after, log = before ++ e :: after → e.message.Calls →
    Answered before e after →
      (toolIds (messagesOf (following before e after))).Nodup ∧
      (∀ id ∈ awaited before e, some id ∉ toolIds (messagesOf (following before e after))) ∧
      some [] ∉ answers before e after
  exchanged : ∀ before e after, log = before ++ e :: after → e.message.Calls →
    (exchange e.message (messagesOf after)).isSome → Answered before e after

/-! ## Replays -/

@[simp] theorem messagesOf_append (before after : List (Entry F)) :
    messagesOf (before ++ after) = messagesOf before ++ messagesOf after := List.map_append

@[simp] theorem messagesOf_singleton (e : Entry F) : messagesOf [e] = [e.message] := rfl

theorem called_append {ms ms' : List (HarnessMessage F)} {id : Option Str} :
    Called (ms ++ ms') id ↔ Called ms id ∨ Called ms' id := by
  simp only [Called, List.mem_append, or_and_right, exists_or]

theorem called_singleton {m : HarnessMessage F} {id : Option Str} :
    Called [m] id ↔ id ∈ m.callIds := by
  simp [Called]

/-- Messages without calls call nothing. -/
theorem not_called {ms : List (HarnessMessage F)} (h : ∀ m ∈ ms, m.toolCalls = [])
    (id : Option Str) : ¬Called ms id := by
  rintro ⟨m, hm, hid⟩
  rw [HarnessMessage.callIds, h m hm] at hid
  cases hid

namespace Replay

/-- A message of the log is read. -/
def addEntry (r : Replay F) (e : Entry F) : Replay F :=
  if e.added then r.addMessage e.message else { r with messages := r.messages ++ [e.message] }

def empty : Replay F := ⟨[], fun _ => none⟩

theorem foldl_addEntry_added (r : Replay F) (messages : List (HarnessMessage F)) :
    (messages.map (⟨·, true⟩ : _ → Entry F)).foldl addEntry r = messages.foldl addMessage r := by
  rw [List.foldl_map]
  rfl

theorem foldl_addEntry_compacted (r : Replay F) (messages : List (HarnessMessage F)) :
    (messages.map (⟨·, false⟩ : _ → Entry F)).foldl addEntry r =
      { r with messages := r.messages ++ messages } := by
  induction messages generalizing r with
  | nil => rw [List.map_nil, List.foldl_nil, List.append_nil]
  | cons m messages ih =>
    rw [List.map_cons, List.foldl_cons, ih]
    simp [addEntry]

theorem onEvent_foldl (log : List (Entry F)) (event : HarnessEvent F) :
    (log.foldl addEntry empty).onEvent event = (writeEvent log event).foldl addEntry empty := by
  rw [onEvent, writeEvent]
  split_ifs
  · rfl
  · cases event.payload with
    | messageAdded message => rw [List.foldl_append]; rfl
    | messagesAdded messages => rw [List.foldl_append, foldl_addEntry_added]
    | compacted messages => rw [foldl_addEntry_compacted]; rfl
    | other => rfl

end Replay

/-- What is read of the events is read of the messages that they have written. -/
theorem replay_eq (events : List (HarnessEvent F)) :
    replay events = (written events).foldl Replay.addEntry .empty := by
  have hfold (log : List (Entry F)) :
      events.foldl Replay.onEvent (log.foldl Replay.addEntry .empty) =
        (events.foldl writeEvent log).foldl Replay.addEntry .empty := by
    induction events generalizing log with
    | nil => rfl
    | cons event events ih =>
      rw [List.foldl_cons, List.foldl_cons, Replay.onEvent_foldl, ih]
  exact hfold []

/-- What a compaction has given comes first. -/
theorem pairwise_written (events : List (HarnessEvent F)) :
    (written events).Pairwise fun x y => y.added = false → x.added = false := by
  have hfold (log : List (Entry F))
      (h : log.Pairwise fun x y => y.added = false → x.added = false) :
      (events.foldl writeEvent log).Pairwise fun x y => y.added = false → x.added = false := by
    induction events generalizing log with
    | nil => exact h
    | cons event events ih =>
      refine ih _ ?_
      rw [writeEvent]
      split_ifs
      · exact h
      · cases event.payload with
        | messageAdded message =>
          refine List.pairwise_append.2 ⟨h, List.pairwise_singleton _ _, ?_⟩
          simp
        | messagesAdded messages =>
          refine List.pairwise_append.2 ⟨h, List.pairwise_map.2 ?_, ?_⟩
          · exact List.pairwise_of_forall (by simp)
          · simp
        | compacted messages =>
          exact List.pairwise_map.2 (List.pairwise_of_forall (by simp))
        | other => exact h
  exact hfold [] .nil

/-! ### Outputs that wait -/

/-- Messages that are outputs. -/
def Outputs (messages : List (HarnessMessage F)) : Prop :=
  ∀ m ∈ messages, m.role = .tool ∧ m.toolCalls = []

/-- The replay of a part of a log. -/
structure Reads (before : List (Entry F)) (r : Replay F) : Prop where
  called : ∀ id, Called r.messages id ↔ Called (messagesOf before) id
  pending : ∀ id, (r.pendingToolOutputs id).isSome ↔ ¬Called (messagesOf before) (some id) ∧
    ∃ x ∈ before, x.added ∧ x.message.role = .tool ∧ x.message.toolCallId = some id
  output : ∀ id m, r.pendingToolOutputs id = some m →
    m.role = .tool ∧ m.toolCalls = [] ∧ m.toolCallId = some id

theorem reads_empty : Reads [] (Replay.empty (F := F)) where
  called id := Iff.rfl
  pending id := by simp [Replay.empty]
  output id m h := by cases h

/-- The outputs that have waited for one of the calls come in, each once. -/
theorem Replay.popOutputs_spec (ids : List (Option Str)) (r : Replay F)
    (h : ∀ id m, r.pendingToolOutputs id = some m →
      m.role = .tool ∧ m.toolCalls = [] ∧ m.toolCallId = some id) :
    ∃ outputs, Outputs outputs ∧ (toolIds outputs).Nodup ∧
      (∀ id, id ∈ toolIds outputs ↔
        ∃ t, id = some t ∧ some t ∈ ids ∧ (r.pendingToolOutputs t).isSome) ∧
      (r.popOutputs ids).messages = r.messages ++ outputs ∧
      ∀ t, (r.popOutputs ids).pendingToolOutputs t =
        if some t ∈ ids then none else r.pendingToolOutputs t := by
  induction ids generalizing r with
  | nil =>
    refine ⟨[], ?_, List.nodup_nil, ?_, (List.append_nil _).symm, fun t => ?_⟩
    · simp [Outputs]
    · simp [toolIds]
    · simp [popOutputs]
  | cons id ids ih =>
    cases id with
    | none =>
      rw [popOutputs]
      obtain ⟨outputs, hout, hnodup, hmem, hmessages, hpending⟩ := ih r h
      refine ⟨outputs, hout, hnodup, fun id => ?_, hmessages, fun t => ?_⟩
      · simp [hmem]
      · simp [hpending]
    | some u =>
      rw [popOutputs]
      cases hu : r.pendingToolOutputs u with
      | none =>
        obtain ⟨outputs, hout, hnodup, hmem, hmessages, hpending⟩ := ih r h
        refine ⟨outputs, hout, hnodup, fun id => ?_, hmessages, fun t => ?_⟩
        · rw [hmem]
          refine exists_congr fun t => and_congr_right fun _ => ?_
          by_cases ht : t = u
          · simp [ht, hu]
          · simp [ht]
        · dsimp only
          rw [hpending]
          by_cases ht : t = u
          · simp [ht, hu]
          · simp [ht]
      | some output =>
        obtain ⟨outputs, hout, hnodup, hmem, hmessages, hpending⟩ :=
          ih ⟨r.messages ++ [output], Function.update r.pendingToolOutputs u none⟩ fun t m hm => by
            dsimp only at hm
            rw [Function.update_apply] at hm
            split_ifs at hm
            exact h t m hm
        have hoid := h u output hu
        have hnot : some u ∉ toolIds outputs := by
          rw [hmem]
          rintro ⟨t, ht, -, hsome⟩
          cases ht
          simp at hsome
        refine ⟨output :: outputs, ?_, ?_, fun id => ?_, ?_, fun t => ?_⟩
        · exact List.forall_mem_cons.2 ⟨⟨hoid.1, hoid.2.1⟩, hout⟩
        · rw [toolIds, List.map_cons, List.nodup_cons, hoid.2.2]
          exact ⟨hnot, hnodup⟩
        · rw [toolIds, List.map_cons, List.mem_cons, hoid.2.2, ← toolIds, hmem]
          constructor
          · rintro (rfl | ⟨t, rfl, ht, hsome⟩)
            · exact ⟨u, rfl, List.mem_cons_self, by rw [hu]; rfl⟩
            · dsimp only at hsome
              rw [Function.update_apply] at hsome
              split_ifs at hsome
              · cases hsome
              · exact ⟨t, rfl, List.mem_cons_of_mem _ ht, hsome⟩
          · rintro ⟨t, rfl, ht, hsome⟩
            by_cases htu : t = u
            · exact .inl (congrArg some htu)
            · refine .inr ⟨t, rfl, ?_, ?_⟩
              · exact (List.mem_cons.1 ht).resolve_left fun heq => htu (Option.some.inj heq)
              · dsimp only
                rwa [Function.update_of_ne htu]
        · rw [hmessages, List.append_assoc, List.singleton_append]
        · rw [hpending]
          dsimp only
          by_cases htu : t = u
          · simp [htu]
          · simp [htu, Function.update_of_ne]

/-! ### Reading on -/

theorem waits_congr {before before' : List (Entry F)}
    (h : ∀ id, Called (messagesOf before) id ↔ Called (messagesOf before') id) (o : Entry F) :
    Waits before o ↔ Waits before' o := by
  rw [Waits, Waits, h]

theorem called_append_of_not_calls {before outputs : List (Entry F)}
    (h : ∀ o ∈ outputs, o.message.toolCalls = []) (id : Option Str) :
    Called (messagesOf (before ++ outputs)) id ↔ Called (messagesOf before) id := by
  rw [messagesOf_append, called_append, or_iff_left]
  refine not_called (fun m hm => ?_) id
  obtain ⟨o, ho, rfl⟩ := List.mem_map.1 hm
  exact h o ho

namespace Reads

variable {before : List (Entry F)} {r : Replay F} {e o : Entry F}

/-- An output waits for its call. -/
theorem wait (h : Reads before r) (ho : o.message.toolCalls = []) (hwaits : Waits before o) :
    (r.addEntry o).messages = r.messages ∧ Reads (before ++ [o]) (r.addEntry o) := by
  have hcalled (id : Option Str) : Called (messagesOf (before ++ [o])) id ↔
      Called (messagesOf before) id := called_append_of_not_calls (by simpa using ho) id
  obtain ⟨hadded, htool, hnot⟩ := hwaits
  have hr : ¬Called r.messages o.message.toolCallId := mt (h.called _).1 hnot
  rw [Replay.addEntry, if_pos hadded, Replay.addMessage, if_pos ⟨htool, hr⟩]
  cases hid : o.message.toolCallId with
  | none =>
    refine ⟨rfl, fun id => ?_, fun id => ?_, h.output⟩
    · rw [hcalled, h.called]
    · rw [hcalled]
      simp [h.pending, hid]
  | some u =>
    refine ⟨rfl, fun id => ?_, fun t => ?_, fun t m hm => ?_⟩
    · rw [hcalled, h.called]
    · dsimp only
      rw [hcalled, Function.update_apply]
      rw [hid] at hnot
      by_cases ht : t = u
      · subst ht
        rw [if_pos rfl]
        exact iff_of_true rfl ⟨hnot, o, List.mem_concat_self, hadded, htool, hid⟩
      · have hut : u ≠ t := Ne.symm ht
        simp [ht, h.pending, hid, hut]
    · dsimp only at hm
      rw [Function.update_apply] at hm
      split_ifs at hm with ht
      · cases hm
        exact ⟨htool, ho, ht ▸ hid⟩
      · exact h.output t m hm

/-- An output for a call that has been made, or of a compaction, is read where it stands. -/
theorem place (h : Reads before r) (htool : o.message.role = .tool)
    (ho : o.message.toolCalls = []) (hwaits : ¬Waits before o) :
    (r.addEntry o).messages = r.messages ++ [o.message] ∧
      Reads (before ++ [o]) (r.addEntry o) := by
  have hcalled (id : Option Str) : Called (messagesOf (before ++ [o])) id ↔
      Called (messagesOf before) id := called_append_of_not_calls (by simpa using ho) id
  have hadd : r.addEntry o = { r with messages := r.messages ++ [o.message] } := by
    rw [Replay.addEntry]
    split_ifs with hadded
    · rw [Replay.addMessage, if_neg, HarnessMessage.callIds, ho]
      · rfl
      · rintro ⟨-, hnot⟩
        exact hwaits ⟨hadded, htool, mt (h.called _).2 hnot⟩
    · rfl
  rw [hadd]
  refine ⟨rfl, fun id => ?_, fun t => ?_, h.output⟩
  · rw [hcalled, ← h.called, called_append, called_singleton, HarnessMessage.callIds, ho]
    simp
  · rw [hcalled, h.pending]
    refine and_congr_right fun hnot => ?_
    constructor
    · rintro ⟨x, hx, hprops⟩
      exact ⟨x, List.mem_append_left _ hx, hprops⟩
    · rintro ⟨x, hx, hadded, hx₂, hid⟩
      obtain hx | hx := List.mem_append.1 hx
      · exact ⟨x, hx, hadded, hx₂, hid⟩
      · cases List.mem_singleton.1 hx
        exact absurd ⟨hadded, htool, hid ▸ hnot⟩ hwaits

/-- A message that is not an output is read with the outputs that have waited for its calls. -/
theorem head (h : Reads before r) (hrole : e.message.role ≠ .tool)
    (hbase : e.added = false → ∀ x ∈ before, x.added = false) :
    ∃ outputs, Outputs outputs ∧ (toolIds outputs).Nodup ∧
      (∀ id, id ∈ toolIds outputs ↔ ∃ t ∈ awaited before e, id = some t) ∧
      (r.addEntry e).messages = r.messages ++ e.message :: outputs ∧
      Reads (before ++ [e]) (r.addEntry e) := by
  have hcalled (id : Option Str) : Called (messagesOf (before ++ [e])) id ↔
      Called (messagesOf before) id ∨ id ∈ e.message.callIds := by
    rw [messagesOf_append, messagesOf_singleton, called_append, called_singleton]
  have hexists (t : Str) :
      (∃ x ∈ before ++ [e], x.added ∧ x.message.role = .tool ∧ x.message.toolCallId = some t) ↔
        ∃ x ∈ before, x.added ∧ x.message.role = .tool ∧ x.message.toolCallId = some t := by
    simp [hrole, or_and_right, exists_or]
  rw [Replay.addEntry]
  split_ifs with hadded
  · rw [Replay.addMessage, if_neg (fun hand => hrole hand.1)]
    obtain ⟨outputs, hout, hnodup, hmem, hmessages, hpending⟩ :=
      Replay.popOutputs_spec e.message.callIds { r with messages := r.messages ++ [e.message] }
        h.output
    refine ⟨outputs, hout, hnodup, fun id => ?_, ?_, fun id => ?_, fun t => ?_, fun t m hm => ?_⟩
    · rw [hmem]
      refine exists_congr fun t => ?_
      rw [awaited, if_pos hadded, Finset.mem_filter, List.mem_toFinset, List.reduceOption_mem_iff,
        ← h.pending, and_comm]
    · rw [hmessages, List.append_assoc, List.singleton_append]
    · rw [hmessages, called_append, called_append, called_singleton, h.called, hcalled,
        or_iff_left (not_called (fun m hm => (hout m hm).2) id)]
    · rw [hpending, hcalled, hexists, not_or]
      split_ifs with ht
      · simp [ht]
      · rw [h.pending]
        simp [ht]
    · rw [hpending] at hm
      split_ifs at hm
      exact h.output t m hm
  · have hnone (t : Str) : ¬∃ x ∈ before, x.added ∧ x.message.role = .tool ∧
        x.message.toolCallId = some t := by
      rintro ⟨x, hx, hxadded, -⟩
      rw [hbase (Bool.eq_false_of_not_eq_true hadded) x hx] at hxadded
      cases hxadded
    refine ⟨[], ?_, List.nodup_nil, fun id => ?_, rfl, fun id => ?_, fun t => ?_, h.output⟩
    · simp [Outputs]
    · simp [toolIds, awaited, hadded]
    · rw [called_append, called_singleton, h.called, hcalled]
    · rw [h.pending, hexists]
      exact iff_of_false (fun hand => hnone t hand.2) fun hand => hnone t hand.2

/-- The outputs that follow are read where they stand, but for those that wait. -/
theorem outputs (h : Reads before r) (outputs : List (Entry F))
    (hout : ∀ o ∈ outputs, o.message.role = .tool ∧ o.message.toolCalls = []) :
    (outputs.foldl Replay.addEntry r).messages =
        r.messages ++ messagesOf (outputs.filter fun o => ¬Waits before o) ∧
      Reads (before ++ outputs) (outputs.foldl Replay.addEntry r) := by
  induction outputs generalizing before r with
  | nil => simpa [messagesOf] using h
  | cons o outputs ih =>
    rw [List.forall_mem_cons] at hout
    have hwaits (x : Entry F) : Waits (before ++ [o]) x ↔ Waits before x :=
      waits_congr (called_append_of_not_calls (by simpa using hout.1.2)) x
    rw [List.foldl_cons, List.filter_cons]
    by_cases ho : Waits before o
    · obtain ⟨hmessages, hreads⟩ := h.wait hout.1.2 ho
      obtain ⟨hmessages', hreads'⟩ := ih hreads hout.2
      rw [List.append_assoc] at hreads'
      refine ⟨?_, hreads'⟩
      rw [hmessages', hmessages]
      simp [hwaits, ho]
    · obtain ⟨hmessages, hreads⟩ := h.place hout.1.1 hout.1.2 ho
      obtain ⟨hmessages', hreads'⟩ := ih hreads hout.2
      rw [List.append_assoc] at hreads'
      refine ⟨?_, hreads'⟩
      rw [hmessages', hmessages]
      simp [hwaits, ho, messagesOf]

end Reads

/-! ### The runs of a log -/

/-- The outputs that stand after a message when the log has been read. -/
def Places (before : List (Entry F)) (s : Entry F × List (Entry F))
    (run : List (HarnessMessage F)) : Prop :=
  ∃ outputs, Outputs outputs ∧ (toolIds outputs).Nodup ∧
    (∀ id, id ∈ toolIds outputs ↔ ∃ t ∈ awaited before s.1, id = some t) ∧
    run = outputs ++ messagesOf (s.2.filter fun o => ¬Waits (before ++ [s.1]) o)

/-- The runs of the messages for those of a log. -/
inductive Placed : List (Entry F) → List (Entry F × List (Entry F)) →
    List (HarnessMessage F × List (HarnessMessage F)) → Prop
  | nil (before : List (Entry F)) : Placed before [] []
  | cons {before : List (Entry F)} {s : Entry F × List (Entry F)}
    {run : List (HarnessMessage F)} {segments : List (Entry F × List (Entry F))}
    {blocks : List (HarnessMessage F × List (HarnessMessage F))} (places : Places before s run)
    (rest : Placed (before ++ s.1 :: s.2) segments blocks) :
    Placed before (s :: segments) ((s.1.message, run) :: blocks)

theorem isTool_iff {m : HarnessMessage F} : isTool m = true ↔ m.role = .tool := by
  rw [isTool, decide_eq_true_eq]

theorem isTool_eq_false_iff {m : HarnessMessage F} : isTool m = false ↔ m.role ≠ .tool := by
  rw [isTool, decide_eq_false_iff_not]

theorem Placed.heads {before : List (Entry F)} {segments : List (Entry F × List (Entry F))}
    {blocks : List (HarnessMessage F × List (HarnessMessage F))}
    (h : Placed before segments blocks) :
    blocks.map Prod.fst = segments.map (·.1.message) := by
  induction h with
  | nil => rfl
  | cons _ _ ih => rw [List.map_cons, List.map_cons, ih]

/-- Reading the runs of a log. -/
theorem Reads.placed {before : List (Entry F)} {r : Replay F} (h : Reads before r)
    {segments : List (Entry F × List (Entry F))}
    (hsegments : Runs.Separated (fun e => isTool e.message) segments)
    (hcalls : ∀ e ∈ Runs.join segments, e.message.role = .tool → e.message.toolCalls = [])
    (hbase : (before ++ Runs.join segments).Pairwise fun x y => y.added = false → x.added = false) :
    ∃ blocks, Placed before segments blocks ∧ Runs.Separated isTool blocks ∧
      ((Runs.join segments).foldl Replay.addEntry r).messages = r.messages ++ Runs.join blocks := by
  induction segments generalizing before r with
  | nil => exact ⟨[], .nil before, List.forall_mem_nil _, (List.append_nil _).symm⟩
  | cons s segments ih =>
    obtain ⟨⟨hhead, hfollow⟩, hsegments⟩ := Runs.separated_cons.1 hsegments
    rw [Runs.join_cons] at hcalls hbase
    have hrole := isTool_eq_false_iff.1 hhead
    obtain ⟨outputs, hout, hnodup, hmem, hmessages, hreads⟩ := h.head hrole fun hadded x hx =>
      (List.pairwise_append.1 hbase).2.2 x hx s.1 List.mem_cons_self hadded
    obtain ⟨hmessages', hreads'⟩ := hreads.outputs s.2 fun o ho =>
      ⟨isTool_iff.1 (hfollow o ho),
        hcalls o (List.mem_cons_of_mem _ (List.mem_append_left _ ho)) (isTool_iff.1 (hfollow o ho))⟩
    rw [List.append_assoc, List.singleton_append] at hreads'
    obtain ⟨blocks, hplaced, hblocks, hrest⟩ := ih hreads' hsegments
      (fun e he => hcalls e (List.mem_cons_of_mem _ (List.mem_append_right _ he)))
      (by rwa [List.append_assoc, List.cons_append])
    refine ⟨(s.1.message, outputs ++ messagesOf (s.2.filter fun o => ¬Waits (before ++ [s.1]) o))
      :: blocks, .cons ⟨outputs, hout, hnodup, hmem, rfl⟩ hplaced, ?_, ?_⟩
    · refine Runs.separated_cons.2 ⟨⟨hhead, fun m hm => ?_⟩, hblocks⟩
      obtain hm | hm := List.mem_append.1 hm
      · exact isTool_iff.2 (hout m hm).1
      · obtain ⟨o, ho, rfl⟩ := List.mem_map.1 hm
        exact hfollow o (List.mem_of_mem_filter ho)
    · rw [Runs.join_cons, List.foldl_cons, List.foldl_append, hrest, hmessages', hmessages,
        Runs.join_cons]
      simp

theorem replay_join {lead : List (Entry F)} {segments : List (Entry F × List (Entry F))}
    (hlead : ∀ e ∈ lead, isTool e.message)
    (hsegments : Runs.Separated (fun e => isTool e.message) segments)
    (hcalls : ∀ e ∈ lead ++ Runs.join segments, e.message.role = .tool → e.message.toolCalls = [])
    (hbase : (lead ++ Runs.join segments).Pairwise fun x y => y.added = false → x.added = false) :
    ∃ blocks, Placed lead segments blocks ∧ Runs.Separated isTool blocks ∧
      ((lead ++ Runs.join segments).foldl Replay.addEntry .empty).messages =
        messagesOf (lead.filter fun e => !e.added) ++ Runs.join blocks := by
  rw [List.forall_mem_append] at hcalls
  obtain ⟨hmessages, hreads⟩ := reads_empty.outputs lead fun o ho =>
    ⟨isTool_iff.1 (hlead o ho), hcalls.1 o ho (isTool_iff.1 (hlead o ho))⟩
  rw [List.nil_append] at hreads
  obtain ⟨blocks, hplaced, hblocks, hrest⟩ := hreads.placed hsegments hcalls.2 hbase
  refine ⟨blocks, hplaced, hblocks, ?_⟩
  rw [List.foldl_append, hrest, hmessages]
  have hfilter : (lead.filter fun o => decide ¬Waits [] o) = lead.filter fun e => !e.added := by
    refine List.filter_congr fun e he => ?_
    have hwaits : Waits [] e ↔ e.added = true := by
      simp [Waits, isTool_iff.1 (hlead e he), messagesOf, Called]
    simp [hwaits]
  rw [hfilter]
  rfl

end Hyperforge.HarnessSdk
