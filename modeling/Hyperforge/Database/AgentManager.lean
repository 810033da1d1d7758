import Hyperforge.Database.Tables
import Hyperforge.Library.Crash

/-!
# The agent manager

The methods of `AgentManager` that read the configuration of an agent and change it. Each sends
its statements one after another: what has been executed stays executed when a later statement,
or the method itself, fails. The database may fail to execute any of them.
-/

namespace Hyperforge.Database

open Crash

/-- Why a method raises an exception. -/
inductive Error
  | database
  | notFound (message : String)
  | invalidTargetAgent
  | exportEncryption
  | parseExport (message : String)
  | other (message : String)
deriving DecidableEq

/-- The tables, the statements sent so far, and which of them the database does not execute. -/
structure World (J A E : Type) where
  tables : Tables J A E
  sent : ℕ
  fault : ℕ → Bool

/-- What is done with the database, and may raise an exception. -/
abbrev Db (J A E : Type) := ExceptT Error (StateM (World J A E))

variable {J A D E α β : Type}

/-- The world once a statement has been sent. -/
def World.send (w : World J A E) (t : Tables J A E) : World J A E :=
  { w with tables := t, sent := w.sent + 1 }

/-- `database.execute` -/
def execute (st : Statement J A E) : Db J A E Unit := fun w =>
  if w.fault w.sent then (.error .database, w.send w.tables)
  else match st.exec w.tables with
    | some t => (.ok (), w.send t)
    | none => (.error .database, w.send w.tables)

/-- `database.fetch_all`, and `database.fetch_one` -/
def fetch (query : Tables J A E → α) : Db J A E α := fun w =>
  if w.fault w.sent then (.error .database, w.send w.tables)
  else (.ok (query w.tables), w.send w.tables)

/-- The result of what is done without the database. -/
def result (x : Except Error α) : Db J A E α := fun w => (x, w)

/-- What is done, with any exception turned into another. -/
def mapException (f : Error → Error) (x : Db J A E α) : Db J A E α := fun w =>
  match x w with
  | (.ok a, w) => (.ok a, w)
  | (.error e, w) => (.error (f e), w)

/-- The result, with a database that executes everything. -/
def run (x : Db J A E α) (t : Tables J A E) : Except Error α × Tables J A E :=
  ((x ⟨t, 0, fun _ => false⟩).1, (x ⟨t, 0, fun _ => false⟩).2.tables)

theorem bind_ok {x : Db J A E α} {f : α → Db J A E β} {w w' : World J A E} {a : α}
    (h : x w = (.ok a, w')) : (x >>= f) w = f a w' := by
  change (match x w with | (r, w') => ExceptT.bindCont f r w') = _
  rw [h]
  rfl

theorem bind_error {x : Db J A E α} {f : α → Db J A E β} {w w' : World J A E} {e : Error}
    (h : x w = (.error e, w')) : (x >>= f) w = (.error e, w') := by
  change (match x w with | (r, w') => ExceptT.bindCont f r w') = _
  rw [h]
  rfl

/-! ## Data -/

structure DriverConfig (D : Type) where
  id : Option String
  identifier : String
  name : String
  provider : String
  config : D
deriving DecidableEq

structure WorkflowData (J : Type) where
  id : String
  name : String
  description : Option String
  parameters : Option (List (String × J))
  rules : Option (List Rule)
  required : List String
deriving DecidableEq

structure WorkflowInput (J : Type) where
  id : String
  name : String
  description : Option String
  parameters : Option (List (String × J))
  rules : List Rule
  required : List String
deriving DecidableEq

structure WorkflowUpdate (J : Type) where
  name : String
  description : String
  parameters : List (String × J)
  required : List String
  rules : Option (List Rule)
deriving DecidableEq

/-- The configuration of an agent, for one of its workflows. -/
structure RetrievalAgentConfig (J A D : Type) where
  drivers : List (DriverConfig D)
  rules : List Rule
  memory : MemoryConfig
  workflow : WorkflowData J
  /-- `preprocess`, `context`, `generation` and `postprocess` -/
  agents : Stage → List A

def RetrievalAgentConfig.isEmpty (c : RetrievalAgentConfig J A D) : Bool :=
  c.drivers.isEmpty && (c.agents .preprocess).isEmpty && (c.agents .context).isEmpty &&
    (c.agents .generation).isEmpty && (c.agents .postprocess).isEmpty

/-- What the program knows of the modules of agents and drivers, and how it encrypts the secrets
    of drivers. -/
structure Registry (A D E : Type) where
  /-- `get_agent_config_instance`, which fails for an agent that is not one of the stage. -/
  agent : Stage → A → Except String Unit
  /-- Whether a provider of drivers is registered. -/
  driver : String → Bool
  encryptFields : D → E
  decryptFields : E → D
  decrypt_encrypt : ∀ d, decryptFields (encryptFields d) = d

/-! ## Reading -/

/-- The row of a workflow, if it is active. -/
def activeWorkflow (owner : Owner) (workflowId : String) (t : Tables J A E) :
    Option (WorkflowRow J) :=
  t.workflows.find? fun w => Tables.IsActive owner workflowId w

def ensureWorkflowActive (owner : Owner) (workflowId : String) : Db J A E Unit := do
  let active ← fetch fun t => (activeWorkflow owner workflowId t).isSome
  result (if active then .ok () else .error (.notFound "Workflow not found"))

def WorkflowRow.data (w : WorkflowRow J) : WorkflowData J :=
  ⟨w.workflowId, w.name, w.description, w.parameters, some w.rules, w.required⟩

def workflowsList (owner : Owner) : Db J A E (List (WorkflowData J)) :=
  fetch fun t => (t.workflows.filter fun w => w.owner = owner ∧ w.isDeleted = false).map
    WorkflowRow.data

/-- The rows of an agent that `get_agent_config` selects, and the rules of the agent. -/
structure ConfigRows (A E : Type) where
  agents : Stage → List A
  drivers : List (DriverRow E)
  rules : Option (List Rule)

def selectConfig (owner : Owner) (workflowId : String) (t : Tables J A E) : ConfigRows A E where
  agents stage := ((t.agents stage).filter (·.key = (owner, workflowId))).map AgentRow.config
  drivers := t.drivers.filter (·.owner = owner)
  rules := (t.configs.find? (·.owner = owner)).map ConfigRow.rules

/-- A driver, as it is read from its row. -/
def readDriver (registry : Registry A D E) (d : DriverRow E) : DriverConfig D :=
  ⟨some (toString d.id), d.identifier, d.driver, d.provider, registry.decryptFields d.config⟩

/-- `get_driver_config_instance`, of the row of a driver -/
def driverInstance (registry : Registry A D E) (d : DriverRow E) :
    Except Error (DriverConfig D) :=
  if registry.driver d.provider then .ok (readDriver registry d)
  else .error (.other ("Source module '" ++ d.provider ++ "' is not registered"))

/-- The configuration that has been read, once its rows have been validated. -/
def configInstance (registry : Registry A D E) (workflowId : String) (rows : ConfigRows A E)
    (workflow : Option (WorkflowRow J)) : Except Error (RetrievalAgentConfig J A D) := do
  [Stage.preprocess, .context, .generation, .postprocess].forM fun stage =>
    (rows.agents stage).forM fun a => (registry.agent stage a).mapError .other
  let drivers ← rows.drivers.mapM (driverInstance registry)
  match workflow, rows.rules with
  | none, _ => .error (.notFound "Workflow not found")
  | some _, none => .error (.notFound "Agent config not found")
  | some w, some rules => .ok {
      drivers := drivers
      rules := rules
      memory := ⟨none⟩
      -- the column `required` is not selected
      workflow := ⟨workflowId, w.name, w.description, w.parameters, some w.rules, []⟩
      agents := rows.agents }

/-- `get_agent_config`, with the default memory -/
def getAgentConfig (registry : Registry A D E) (owner : Owner) (workflowId : String) :
    Db J A E (RetrievalAgentConfig J A D) := do
  let rows ← fetch (selectConfig owner workflowId)
  let workflow ← fetch (activeWorkflow owner workflowId)
  result (configInstance registry workflowId rows workflow)

def PromptRow.config (p : PromptRow) : PromptConfig :=
  ⟨p.name, p.description, p.prompt, p.arguments, p.icons, p.metadata, some (toString p.id)⟩

def getPrompts (owner : Owner) : Db J A E (List PromptConfig) :=
  fetch fun t =>
    (Query.selectFrom t.prompts t.configs fun _ c => c.owner = owner).map PromptRow.config

section Reading

variable {registry : Registry A D E} {owner : Owner} {workflowId : String}
  {rows : ConfigRows A E} {workflow : Option (WorkflowRow J)} {c : RetrievalAgentConfig J A D}
  {w : World J A E}

theorem driverInstance_eq_ok {d : DriverRow E} {driver : DriverConfig D} :
    driverInstance registry d = .ok driver ↔
      registry.driver d.provider = true ∧ driver = readDriver registry d := by
  rw [driverInstance]
  split_ifs with hd
  · exact ⟨fun h => ⟨hd, (Except.ok.inj h).symm⟩, fun h => h.2 ▸ rfl⟩
  · exact ⟨fun h => (by cases h), fun h => absurd h.1 hd⟩

theorem mapM_driverInstance {ds : List (DriverRow E)} {drivers : List (DriverConfig D)} :
    ds.mapM (driverInstance registry) = .ok drivers ↔
      (∀ d ∈ ds, registry.driver d.provider = true) ∧ drivers = ds.map (readDriver registry) := by
  induction ds generalizing drivers with
  | nil => exact ⟨fun h => ⟨fun _ h => absurd h List.not_mem_nil, (Except.ok.inj h).symm⟩,
      fun h => h.2 ▸ rfl⟩
  | cons d ds ih =>
    rw [List.mapM_cons, bind_eq_ok, List.forall_mem_cons]
    constructor
    · rintro ⟨driver, hdriver, h⟩
      obtain ⟨drivers', hdrivers, h⟩ := bind_eq_ok.1 h
      obtain ⟨hd, rfl⟩ := driverInstance_eq_ok.1 hdriver
      obtain ⟨hds, rfl⟩ := ih.1 hdrivers
      exact ⟨⟨hd, hds⟩, (Except.ok.inj h).symm⟩
    · rintro ⟨⟨hd, hds⟩, rfl⟩
      exact ⟨_, driverInstance_eq_ok.2 ⟨hd, rfl⟩, bind_eq_ok.2 ⟨_, ih.2 ⟨hds, rfl⟩, rfl⟩⟩

theorem forM_eq_ok {l : List α} {f : α → Except Error PUnit} :
    l.forM f = .ok ⟨⟩ ↔ ∀ a ∈ l, f a = .ok ⟨⟩ := by
  induction l with
  | nil => exact ⟨fun _ _ h => absurd h List.not_mem_nil, fun _ => rfl⟩
  | cons a l ih =>
    rw [List.forall_mem_cons, ← ih]
    exact bind_eq_ok.trans ⟨fun ⟨_, ha, hl⟩ => ⟨ha, hl⟩, fun ⟨ha, hl⟩ => ⟨_, ha, hl⟩⟩

/-- The configuration that is read, if all that is in it is known. -/
theorem configInstance_eq_ok :
    configInstance registry workflowId rows workflow = .ok c ↔
      (∀ stage, ∀ a ∈ rows.agents stage, registry.agent stage a = .ok ()) ∧
      (∀ d ∈ rows.drivers, registry.driver d.provider = true) ∧
      ∃ w rules, workflow = some w ∧ rows.rules = some rules ∧ c = {
        drivers := rows.drivers.map (readDriver registry)
        rules := rules
        memory := ⟨none⟩
        workflow := ⟨workflowId, w.name, w.description, w.parameters, some w.rules, []⟩
        agents := rows.agents } := by
  have hagents : ([Stage.preprocess, .context, .generation, .postprocess].forM fun stage =>
      (rows.agents stage).forM fun a => (registry.agent stage a).mapError Error.other) = .ok ⟨⟩ ↔
      ∀ stage, ∀ a ∈ rows.agents stage, registry.agent stage a = .ok () := by
    simp only [forM_eq_ok, mapError_eq_ok]
    exact ⟨fun h stage => h stage (by cases stage <;> simp), fun h stage _ => h stage⟩
  rw [configInstance, bind_eq_ok]
  constructor
  · rintro ⟨_, h, h'⟩
    obtain ⟨drivers, hdrivers, h'⟩ := bind_eq_ok.1 h'
    obtain ⟨hknown, rfl⟩ := mapM_driverInstance.1 hdrivers
    refine ⟨hagents.1 h, hknown, ?_⟩
    rcases workflow with _ | w
    · cases h'
    rcases hrules : rows.rules with _ | rules
    · rw [hrules] at h'
      cases h'
    · rw [hrules] at h'
      exact ⟨w, rules, rfl, rfl, (Except.ok.inj h').symm⟩
  · rintro ⟨h, hknown, w, rules, rfl, hrules, rfl⟩
    refine ⟨_, hagents.2 h, bind_eq_ok.2 ⟨_, mapM_driverInstance.2 ⟨hknown, rfl⟩, ?_⟩⟩
    rw [hrules]

theorem fetch_cases (query : Tables J A E → α) (w : World J A E) :
    fetch query w = (.error .database, w.send w.tables) ∨
      fetch query w = (.ok (query w.tables), w.send w.tables) := by
  rw [fetch]
  split_ifs
  · exact .inl rfl
  · exact .inr rfl

/-- Reading the configuration changes nothing. -/
theorem getAgentConfig_cases (registry : Registry A D E) (owner : Owner) (workflowId : String)
    (w : World J A E) : (getAgentConfig registry owner workflowId w).2.tables = w.tables ∧
    ((getAgentConfig registry owner workflowId w).1 = .error .database ∨
      (getAgentConfig registry owner workflowId w).1 = configInstance registry workflowId
        (selectConfig owner workflowId w.tables) (activeWorkflow owner workflowId w.tables)) := by
  rw [getAgentConfig]
  rcases fetch_cases (selectConfig owner workflowId) w with h | h
  · rw [bind_error h]
    exact ⟨rfl, .inl rfl⟩
  rw [bind_ok h]
  rcases fetch_cases (activeWorkflow owner workflowId) (w.send w.tables) with h | h
  · rw [bind_error h]
    exact ⟨rfl, .inl rfl⟩
  · rw [bind_ok h]
    exact ⟨rfl, .inr rfl⟩

end Reading

/-! ## Writing -/

def addAgent (owner : Owner) (memory : MemoryConfig) (rules : List Rule) : Db J A E Unit := do
  execute (.insertConfig owner rules memory)
  execute (.insertWorkflow owner "default" ⟨"default", some "Default workflow", some [], [], []⟩)

def deleteAgent (owner : Owner) : Db J A E Unit := execute (.deleteConfig owner)

def addWorkflow (owner : Owner) (item : WorkflowInput J) : Db J A E Unit :=
  execute (.insertWorkflow owner item.id
    ⟨item.name, item.description, item.parameters, item.required, item.rules⟩)

def setWorkflow (owner : Owner) (workflowId : String) (item : WorkflowUpdate J) :
    Db J A E Unit := do
  ensureWorkflowActive owner workflowId
  execute (.setWorkflow owner workflowId
    ⟨item.name, some item.description, some item.parameters, item.required, item.rules.getD []⟩)

def setRules (owner : Owner) (rules : List Rule) : Db J A E Unit :=
  execute (.setRules owner rules)

/-- An agent is added to a stage of a workflow. -/
def addToStage (stage : Stage) (owner : Owner) (agent : A) (workflowId : String) :
    Db J A E Unit := do
  ensureWorkflowActive owner workflowId
  execute (.insertAgent stage owner workflowId agent)

def addPreprocess (owner : Owner) (agent : A) (workflowId : String) : Db J A E Unit :=
  addToStage .preprocess owner agent workflowId

def addContext (owner : Owner) (agent : A) (workflowId : String) : Db J A E Unit :=
  addToStage .context owner agent workflowId

def addGeneration (owner : Owner) (agent : A) (workflowId : String) : Db J A E Unit :=
  addToStage .generation owner agent workflowId

def addPostprocess (owner : Owner) (agent : A) (workflowId : String) : Db J A E Unit :=
  addToStage .postprocess owner agent workflowId

def addDriver (registry : Registry A D E) (owner : Owner) (config : DriverConfig D) :
    Db J A E Unit :=
  execute (.insertDriver owner config.name config.provider config.identifier
    (registry.encryptFields config.config))

def addPrompt (owner : Owner) (prompt : PromptConfig) : Db J A E Unit :=
  execute (.insertPrompt owner prompt)

end Hyperforge.Database
