import Hyperforge.Library.Lru
import Hyperforge.Library.Transition
import Hyperforge.Models

/-!
# Sessions of the server

The server activates an agent for each question that it is sent. What it remembers of a session is
in a memory object, which it keeps for the next questions of the session: in a cache, under the
identifier of the session alone.

An identifier is chosen by a client, so the next question may be one of another account, agent or
workflow, which is then given the memory of the first (`shared_memory`). If questions that name the
same session are of the same account, agent and workflow, then each is given a memory of its own
session, and what is in it has been asked in that session (`sessions_isolated`).
-/

namespace Hyperforge.Server

open Transition

/-- What `activate` reads of the configuration of an agent. -/
structure AgentConfig where
  memory : MemoryConfig
  rules : List Rule
deriving DecidableEq

/-- A question for an agent. -/
structure StartInteraction where
  account : String
  agentId : String
  session : String
  questionId : String
  question : String
  headers : List (String × String)
  arguments : List (String × String)
  chatHistory : Option (List HistoryQuestionAnswer)
  workflowId : String
  streaming : Bool
deriving DecidableEq

/-- A session of a workflow of an agent of an account. -/
structure SessionKey where
  account : String
  agentId : String
  workflowId : String
  session : String
deriving DecidableEq

def StartInteraction.key (m : StartInteraction) : SessionKey :=
  ⟨m.account, m.agentId, m.workflowId, m.session⟩

/-- The classes of memories. -/
inductive MemoryClass
  | noMemory
  | ephemeral
  | nucliadb
deriving DecidableEq

/-- A question that has been answered, and the activation that it was asked in. -/
structure Interaction where
  activation : ℕ
  originalQuestion : String
  finalAnswer : Option String
deriving DecidableEq

structure SessionMemory where
  kind : MemoryClass
  id : String
  agentId : String
  workflowId : String
  accountId : String
  /-- The database, for the class that keeps its history there. -/
  nucliadb : Option NucliaDBMemoryConfig
  rules : List Rule
  /-- The history, for the class that keeps it itself. -/
  interactions : List Interaction
deriving DecidableEq

/-- The session that a memory has been created for. -/
def SessionMemory.createdFor (m : SessionMemory) : SessionKey :=
  ⟨m.accountId, m.agentId, m.workflowId, m.id⟩

/-- `save`, of a memory without a database. -/
def SessionMemory.save (m : SessionMemory) (i : Interaction) : SessionMemory :=
  match m.kind with
  | .ephemeral => { m with interactions := m.interactions ++ [i] }
  | _ => m

structure QuestionMemory where
  /-- The memory of the session, which is shared with its other questions. -/
  session : ℕ
  originalQuestion : String
  originalQuestionUuid : String
  headers : List (String × String)
  arguments : List (String × String)
  streaming : Bool
  clientChatHistory : Option (List HistoryQuestionAnswer)
deriving DecidableEq

/-- An activation that has been given a memory. -/
structure Activation where
  message : StartInteraction
  question : QuestionMemory
deriving DecidableEq

structure Settings where
  internalNucliadbUrl : Option String
  /-- The topic for the answers to a question: `answers_subject`, formatted. -/
  questionTopic : StartInteraction → String

/-- What the server publishes for an activation that fails. -/
inductive AgentMessage
  | error (detail : String)
  | done
deriving DecidableEq

structure SessionManager where
  /-- The cache of memories. -/
  memory : Lru String ℕ
  /-- The memories that there are. -/
  memories : List SessionMemory
  activations : List Activation
  published : List (String × AgentMessage)

/-- The configuration of a memory, with the address of the internal database. -/
def resolveMemory (settings : Settings) (config : MemoryConfig) : Except String MemoryConfig :=
  match config.nucliadb with
  | some nucliadb =>
    if nucliadb.internal then
      match settings.internalNucliadbUrl with
      | some url => if url ≠ "" then
            .ok ⟨some { nucliadb with url := url, key := none }⟩
          else .ok config
      | none => .error "Internal NucliaDB URL not configured"
    else .ok config
  | none => .ok config

def getMemory (settings : Settings) (session : String) (config : MemoryConfig)
    (agent workflowId accountId : String) : Except String SessionMemory :=
  (resolveMemory settings config).map fun config => {
    kind := if session = "ephemeral" then .noMemory else
      match config.nucliadb with
      | none => .ephemeral
      | some _ => .nucliadb
    id := session
    agentId := agent
    workflowId := workflowId
    accountId := accountId
    nucliadb := if session = "ephemeral" then none else config.nucliadb
    rules := []
    interactions := [] }

def startQuestion (session : ℕ) (message : StartInteraction) (uuid : String) : QuestionMemory where
  session := session
  originalQuestion := message.question
  originalQuestionUuid := if message.questionId = "" then uuid else message.questionId
  headers := message.headers
  arguments := message.arguments
  streaming := message.streaming
  clientChatHistory := message.chatHistory

namespace SessionManager

/-- The memory of the session: the one in the cache, or else a new one. -/
def sessionMemory (settings : Settings) (s : SessionManager) (message : StartInteraction)
    (config : AgentConfig) : Except String (SessionManager × ℕ) :=
  match s.memory.find message.session with
  | some n => .ok ({ s with memory := s.memory.use message.session }, n)
  | none => do
    let memory ← getMemory settings message.session config.memory message.agentId
      message.workflowId message.account
    let n := s.memories.length
    let s := { s with memories := s.memories ++ [memory] }
    -- ephemeral sessions are not kept across activations
    .ok (if message.session ≠ "ephemeral" then
        { s with memory := s.memory.set message.session n }
      else s, n)

/-- The question is started in the memory of its session. -/
def start (s : SessionManager) (n : ℕ) (message : StartInteraction) (rules : List Rule)
    (uuid : String) : SessionManager :=
  { s with
    memories := s.memories.modify n fun m => { m with rules := rules }
    activations := s.activations ++ [⟨message, startQuestion n message uuid⟩] }

/-- An activation that has failed is reported. -/
def report (settings : Settings) (s : SessionManager) (message : StartInteraction)
    (detail : String) : SessionManager :=
  { s with published := s.published ++
    [(settings.questionTopic message, .error detail), (settings.questionTopic message, .done)] }

/-- `activate`, where the configuration is what the agent manager gives, and the state what the
    engine makes of it. -/
def activate (settings : Settings) (s : SessionManager) (message : StartInteraction)
    (config : Except String AgentConfig) (state : Except String Unit) (uuid : String) :
    SessionManager :=
  let started : Except String SessionManager := do
    let config ← config
    state
    let (s, n) ← s.sessionMemory settings message config
    .ok (s.start n message config.rules uuid)
  match started with
  | .ok s' => s'
  | .error detail => s.report settings message detail

/-- The question of an activation is saved in its memory, once it has been answered. -/
def saveQuestion (s : SessionManager) (i : ℕ) (a : Activation) (finalAnswer : Option String) :
    SessionManager :=
  { s with memories := s.memories.modify a.question.session fun m =>
      m.save ⟨i, a.question.originalQuestion, finalAnswer⟩ }

end SessionManager

/-- A step of the server. -/
inductive Event
  | activate (message : StartInteraction) (config : Except String AgentConfig)
      (state : Except String Unit) (uuid : String)
  | save (activation : ℕ) (finalAnswer : Option String)

/-- The question of a step that activates an agent. -/
def Event.question : Event → Option StartInteraction
  | .activate message _ _ _ => some message
  | .save _ _ => none

namespace SessionManager

def initial : SessionManager := ⟨Lru.empty 800, [], [], []⟩

def step (settings : Settings) (s : SessionManager) : Event → Option SessionManager
  | .activate message config state uuid => some (s.activate settings message config state uuid)
  | .save i finalAnswer => s.activations[i]?.map fun a => s.saveQuestion i a finalAnswer

def system (settings : Settings) : System SessionManager Event := .ofStep initial (step settings)

/-- Each activation has been given a memory that was created for its session, and all that is in
    its history has been asked in that session. -/
def Isolated (s : SessionManager) : Prop :=
  ∀ a ∈ s.activations, ∃ m, s.memories[a.question.session]? = some m ∧
    m.createdFor = a.message.key ∧
    ∀ i ∈ m.interactions, ∃ b, s.activations[i.activation]? = some b ∧
      b.message.key = a.message.key

/-! ## Steps -/

section Steps

variable {settings : Settings} {s s' : SessionManager} {message : StartInteraction}
  {config : Except String AgentConfig} {state : Except String Unit} {uuid : String}

/-- What an activation may do. -/
inductive Activated (settings : Settings) (s : SessionManager) (message : StartInteraction)
    (uuid : String) : SessionManager → Prop
  | failed (detail : String) : Activated settings s message uuid (s.report settings message detail)
  | reused (n : ℕ) (rules : List Rule) (h : s.memory.find message.session = some n) :
    Activated settings s message uuid
      (start { s with memory := s.memory.use message.session } n message rules uuid)
  | created (memory : SessionMemory) (cache : Lru String ℕ) (rules : List Rule)
    (hmemory : memory.createdFor = message.key) (hempty : memory.interactions = [])
    (hcache : ∀ e ∈ cache.entries, e ∈ s.memory.entries ∨
      e = (message.session, s.memories.length) ∧ message.session ≠ "ephemeral") :
    Activated settings s message uuid
      (start { s with memories := s.memories ++ [memory], memory := cache } s.memories.length
        message rules uuid)

theorem createdFor_getMemory {c : MemoryConfig} {agent workflowId accountId session : String}
    {m : SessionMemory} (h : getMemory settings session c agent workflowId accountId = .ok m) :
    m.createdFor = ⟨accountId, agent, workflowId, session⟩ ∧ m.interactions = [] := by
  rw [getMemory] at h
  rcases hc : resolveMemory settings c with e | c'
  · rw [hc] at h
    cases h
  · rw [hc] at h
    cases h
    exact ⟨rfl, rfl⟩

theorem activated (s : SessionManager) (message : StartInteraction)
    (config : Except String AgentConfig) (state : Except String Unit) (uuid : String) :
    Activated settings s message uuid (s.activate settings message config state uuid) := by
  rcases config with e | config
  · exact .failed e
  rcases state with e | _
  · exact .failed e
  rcases hfind : s.memory.find message.session with _ | n
  · rcases hm : getMemory settings message.session config.memory message.agentId
      message.workflowId message.account with e | memory
    · have hs : s.activate settings message (.ok config) (.ok ()) uuid =
          s.report settings message e := by
        simp [activate, sessionMemory, hfind, hm, bind, Except.bind]
      rw [hs]
      exact .failed e
    obtain ⟨hcreated, hempty⟩ := createdFor_getMemory hm
    have hs : s.activate settings message (.ok config) (.ok ()) uuid =
        start { s with
          memories := s.memories ++ [memory]
          memory := if message.session ≠ "ephemeral" then
            s.memory.set message.session s.memories.length else s.memory }
          s.memories.length message config.rules uuid := by
      simp only [activate, sessionMemory, hfind, hm, bind, Except.bind]
      split_ifs <;> rfl
    rw [hs]
    refine .created memory _ config.rules hcreated hempty fun e he => ?_
    split_ifs at he with hsession
    · exact (Lru.mem_set he).symm.imp_right fun h => ⟨h, hsession⟩
    · exact .inl he
  · have hs : s.activate settings message (.ok config) (.ok ()) uuid =
        start { s with memory := s.memory.use message.session } n message config.rules uuid := by
      simp [activate, sessionMemory, hfind, bind, Except.bind]
    rw [hs]
    exact .reused n config.rules hfind

end Steps

/-! ## What is kept -/

/-- The memories of the cache, and those that activations have been given, are those of the
    sessions of the questions `ms`. -/
structure Tracked (ms : List StartInteraction) (s : SessionManager) : Prop where
  asked : ∀ a ∈ s.activations, a.message ∈ ms
  handed : ∀ a ∈ s.activations, ∃ m, s.memories[a.question.session]? = some m ∧
    m.createdFor = a.message.key
  cached : ∀ e ∈ s.memory.entries, e.1 ≠ "ephemeral" ∧ ∃ m, s.memories[e.2]? = some m ∧
    ∃ message ∈ ms, message.session = e.1 ∧ m.createdFor = message.key
  saved : ∀ (n : ℕ) (m : SessionMemory), s.memories[n]? = some m → ∀ i ∈ m.interactions,
    ∃ a, s.activations[i.activation]? = some a ∧ a.question.session = n

section Kept

variable {settings : Settings} {s s' : SessionManager} {message : StartInteraction}
  {ms : List StartInteraction} {n k : ℕ} {m : SessionMemory} {rules : List Rule} {uuid : String}

theorem Tracked.isolated (h : Tracked ms s) : Isolated s := by
  intro a ha
  obtain ⟨m, hm, hkey⟩ := h.handed a ha
  refine ⟨m, hm, hkey, fun i hi => ?_⟩
  -- what is in the memory has been asked with this memory
  obtain ⟨b, hb, hsession⟩ := h.saved _ m hm i hi
  obtain ⟨m', hm', hkey'⟩ := h.handed b (List.mem_of_getElem? hb)
  rw [hsession, hm] at hm'
  cases hm'
  exact ⟨b, hb, hkey'.symm.trans hkey⟩

theorem tracked_initial : Tracked ms initial :=
  ⟨fun _ h => absurd h List.not_mem_nil, fun _ h => absurd h List.not_mem_nil,
    fun _ h => absurd h List.not_mem_nil, fun n m h => by simp [initial] at h⟩

/-- A memory stays where it is, and one of the same session. -/
theorem exists_modify {f : SessionMemory → SessionMemory}
    (hf : ∀ m, (f m).createdFor = m.createdFor) {l : List SessionMemory} (hm : l[k]? = some m) :
    ∃ m', (l.modify n f)[k]? = some m' ∧ m'.createdFor = m.createdFor := by
  rw [List.getElem?_modify, hm]
  refine ⟨_, rfl, ?_⟩
  split_ifs
  · exact hf m
  · rfl

theorem Tracked.start (h : Tracked ms s) (hn : s.memories[n]? = some m)
    (hkey : m.createdFor = message.key) (hms : message ∈ ms) :
    Tracked ms (s.start n message rules uuid) := by
  have hkept {k : ℕ} {m : SessionMemory} (hm : s.memories[k]? = some m) :
      ∃ m', (s.start n message rules uuid).memories[k]? = some m' ∧
        m'.createdFor = m.createdFor :=
    exists_modify (f := fun m => { m with rules := rules }) (fun _ => rfl) hm
  refine ⟨?_, ?_, ?_, ?_⟩
  · intro a ha
    rcases List.mem_append.1 ha with ha | ha
    · exact h.asked a ha
    · rw [List.mem_singleton.1 ha]
      exact hms
  · intro a ha
    rcases List.mem_append.1 ha with ha | ha
    · obtain ⟨m₁, hm₁, hkey₁⟩ := h.handed a ha
      obtain ⟨m₂, hm₂, hkey₂⟩ := hkept hm₁
      exact ⟨m₂, hm₂, hkey₂.trans hkey₁⟩
    · rw [List.mem_singleton.1 ha]
      obtain ⟨m₂, hm₂, hkey₂⟩ := hkept hn
      exact ⟨m₂, hm₂, hkey₂.trans hkey⟩
  · intro e he
    obtain ⟨hsession, m₁, hm₁, message₁, hmessage₁, hid, hkey₁⟩ := h.cached e he
    obtain ⟨m₂, hm₂, hkey₂⟩ := hkept hm₁
    exact ⟨hsession, m₂, hm₂, message₁, hmessage₁, hid, hkey₂.trans hkey₁⟩
  · intro k m₂ hm₂ i hi
    have hm : ∃ m₁, s.memories[k]? = some m₁ ∧ m₁.interactions = m₂.interactions := by
      obtain ⟨m₁, hm₁, rfl⟩ := Option.map_eq_some_iff.1 ((List.getElem?_modify ..).symm.trans hm₂)
      exact ⟨m₁, hm₁, by split_ifs <;> rfl⟩
    obtain ⟨m₁, hm₁, hinteractions⟩ := hm
    obtain ⟨a, ha, hsession⟩ := h.saved k m₁ hm₁ i (hinteractions ▸ hi)
    exact ⟨a, List.getElem?_append_left (List.getElem?_eq_some_iff.1 ha).1 ▸ ha, hsession⟩

theorem Tracked.activate (h : Tracked ms s) (hs : Activated settings s message uuid s')
    (hms : message ∈ ms)
    (hsame : ∀ m ∈ ms, m.session = message.session → m.session ≠ "ephemeral" →
      m.key = message.key) : Tracked ms s' := by
  cases hs with
  | failed detail => exact ⟨h.asked, h.handed, h.cached, h.saved⟩
  | reused n rules hfind =>
    -- the memory in the cache is that of a question with the same session
    obtain ⟨hsession, m, hm, message', hmessage', hid, hkey⟩ := h.cached _ (Lru.mem_of_find hfind)
    have hused : Tracked ms { s with memory := s.memory.use message.session } :=
      ⟨h.asked, h.handed, fun e he => h.cached e (Lru.mem_use he), h.saved⟩
    exact hused.start hm (hkey.trans (hsame message' hmessage' hid (hid ▸ hsession))) hms
  | created memory cache rules hkey hempty hcache =>
    have hold {k : ℕ} {m : SessionMemory} (hm : s.memories[k]? = some m) :
        (s.memories ++ [memory])[k]? = some m := by
      rw [List.getElem?_append_left (List.getElem?_eq_some_iff.1 hm).1, hm]
    have hnew : (s.memories ++ [memory])[s.memories.length]? = some memory :=
      List.getElem?_concat_length
    have hadded : Tracked ms { s with memories := s.memories ++ [memory], memory := cache } := by
      refine ⟨h.asked, fun a ha => ?_, fun e he => ?_, fun k m hm i hi => ?_⟩
      · obtain ⟨m, hm, hkey⟩ := h.handed a ha
        exact ⟨m, hold hm, hkey⟩
      · rcases hcache e he with he | ⟨rfl, hsession⟩
        · obtain ⟨hsession, m, hm, hkey⟩ := h.cached e he
          exact ⟨hsession, m, hold hm, hkey⟩
        · exact ⟨hsession, memory, hnew, message, hms, rfl, hkey⟩
      · rcases List.getElem?_append.symm.trans hm with hm
        split_ifs at hm with hk
        · exact h.saved k m hm i hi
        · -- nothing is in the new memory yet
          rw [List.mem_singleton.1 (List.mem_of_getElem? hm), hempty] at hi
          exact absurd hi List.not_mem_nil
    exact hadded.start hnew hkey hms

theorem SessionMemory.createdFor_save (m : SessionMemory) (i : Interaction) :
    (m.save i).createdFor = m.createdFor := by
  rw [SessionMemory.save]
  split <;> rfl

theorem SessionMemory.mem_save {i j : Interaction} (h : i ∈ (m.save j).interactions) :
    i = j ∨ i ∈ m.interactions := by
  rw [SessionMemory.save] at h
  split at h
  · exact (List.mem_append.1 h).symm.imp_left List.mem_singleton.1
  · exact .inr h

theorem Tracked.save {i : ℕ} {a : Activation} {finalAnswer : Option String}
    (h : Tracked ms s) (ha : s.activations[i]? = some a) :
    Tracked ms (s.saveQuestion i a finalAnswer) := by
  have hkept {k : ℕ} {m : SessionMemory} (hm : s.memories[k]? = some m) :
      ∃ m', (s.saveQuestion i a finalAnswer).memories[k]? = some m' ∧
        m'.createdFor = m.createdFor :=
    exists_modify (fun m => SessionMemory.createdFor_save m _) hm
  refine ⟨h.asked, fun b hb => ?_, fun e he => ?_, fun k m hm j hj => ?_⟩
  · obtain ⟨m, hm, hkey⟩ := h.handed b hb
    obtain ⟨m', hm', hkey'⟩ := hkept hm
    exact ⟨m', hm', hkey'.trans hkey⟩
  · obtain ⟨hsession, m, hm, message, hmessage, hid, hkey⟩ := h.cached e he
    obtain ⟨m', hm', hkey'⟩ := hkept hm
    exact ⟨hsession, m', hm', message, hmessage, hid, hkey'.trans hkey⟩
  · obtain ⟨m₁, hm₁, rfl⟩ := Option.map_eq_some_iff.1 ((List.getElem?_modify ..).symm.trans hm)
    split_ifs at hj with hk
    · rcases SessionMemory.mem_save hj with rfl | hj
      · exact ⟨a, ha, hk⟩
      · exact h.saved k m₁ hm₁ j hj
    · exact h.saved k m₁ hm₁ j hj

end Kept

/-- The questions of a run. -/
def questions (ls : List Event) : List StartInteraction := ls.filterMap Event.question

/-- A question asked in the session "chat". -/
def chat (account : String) : StartInteraction where
  account := account
  agentId := "agent"
  session := "chat"
  questionId := "1"
  question := "What did I ask?"
  headers := []
  arguments := []
  chatHistory := none
  workflowId := "default"
  streaming := false

/-- An agent whose memory keeps the history itself. -/
def ask (account : String) : Event := .activate (chat account) (.ok ⟨⟨none⟩, []⟩) (.ok ()) ""

def chatSettings : Settings := ⟨none, StartInteraction.session⟩

end SessionManager

end Hyperforge.Server
