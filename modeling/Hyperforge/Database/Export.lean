import Hyperforge.Database.Prompts
import Hyperforge.Library.Json.Dict

/-!
# Exporting and importing agents

An export holds the configuration of an agent for each of its active workflows, and its prompts,
encrypted with a passphrase (`export_`). Importing one stores the workflows, one after another with
their agents, then the rules, the drivers and the prompts (`importConfig`).

What an import does with the database, once it has read the configuration that is there, are its
actions (`importActions`), taken in turn until one fails (`performs_importConfig`).
-/

namespace Hyperforge.Database

/-- `RetrievalAgentExportV1` -/
structure RetrievalAgentExport (J A D : Type) where
  agentConfig : Option (RetrievalAgentConfig J A D)
  agentConfigWorkflows : List (String × RetrievalAgentConfig J A D)
  prompts : List PromptConfig
  timestamp : String

/-- How exports are written as JSON and encrypted, under a key made of a passphrase and a salt. -/
structure Sealing (X : Type) where
  encrypt : String → List UInt8 → X → List UInt8
  decrypt : String → List UInt8 → List UInt8 → Except Error X

/-- The first bytes of an export. -/
abbrev Salt := { bytes : List UInt8 // bytes.length = 16 }

/-- What the agent manager is set up with. -/
structure Setup (J A D E : Type) where
  registry : Registry A D E
  sealing : Sealing (RetrievalAgentExport J A D)
  exportReadChunkSize : ℕ
  exportReadMaxSize : ℕ
  exportReadChunkSize_pos : 0 < exportReadChunkSize

variable {J A D E : Type} (setup : Setup J A D E)

/-! ## Exporting -/

/-- The configuration of each workflow, under its identifier. -/
def workflowConfigsOf (owner : Owner) (workflows : List (WorkflowData J)) :
    Db J A E (List (String × RetrievalAgentConfig J A D)) :=
  workflows.mapM fun workflow =>
    mapException (fun _ => .other "Retrieval agent not found for export") do
      let config ← getAgentConfig setup.registry owner workflow.id
      return (workflow.id, config)

def export_ (owner : Owner) (passphrase : String) (salt : Salt) (timestamp : String) :
    Db J A E (List UInt8) := do
  if passphrase.length < 16 then
    throw (.other "Passphrase too short, minimum 16 characters required")
  let workflows ← workflowsList owner
  let configs ← workflowConfigsOf setup owner workflows
  let workflowConfig := Json.update [] configs
  let prompts ← getPrompts owner
  return salt.1 ++ setup.sealing.encrypt passphrase salt.1
    ⟨workflowConfig.lookup "default", workflowConfig, prompts, timestamp⟩

/-! ## Importing -/

/-- The chunks of a file, until there is none or they are too large. -/
def readChunks : ℕ → List UInt8 → List UInt8 → Except Error (List UInt8)
  | 0, _, read => .ok read
  | n + 1, file, read =>
    let chunk := file.take setup.exportReadChunkSize
    if chunk = [] then .ok read
    else if setup.exportReadMaxSize < (read ++ chunk).length then
      .error (.parseExport "Import file too large")
    else readChunks n (file.drop setup.exportReadChunkSize) (read ++ chunk)

/-- The bytes that are read of a file, which has no more chunks than bytes. -/
def readFile (file : List UInt8) : Except Error (List UInt8) :=
  readChunks setup (file.length + 1) file []

/-- The export in a file, after its salt. -/
def openFile (file : List UInt8) (passphrase : String) :
    Except Error (RetrievalAgentExport J A D) := do
  let bytes ← readFile setup (file.drop 16)
  setup.sealing.decrypt passphrase (file.take 16) bytes

/-- The configurations of the workflows, that of the default workflow first. -/
def RetrievalAgentExport.workflowConfigs (x : RetrievalAgentExport J A D) :
    List (String × RetrievalAgentConfig J A D) :=
  Json.update (x.agentConfig.toList.map fun c => ("default", c)) x.agentConfigWorkflows

/-- The drivers of all workflows, under their names. -/
def collectDrivers (configs : List (String × RetrievalAgentConfig J A D)) :
    List (String × DriverConfig D) :=
  configs.foldl (fun drivers c => Json.update drivers (c.2.drivers.map fun d => (d.name, d))) []

def storeWorkflow (owner : Owner) (workflowId : String) (c : RetrievalAgentConfig J A D) :
    Db J A E Unit := do
  let wf := c.workflow
  if workflowId = "default" then
    setWorkflow owner workflowId
      ⟨wf.name, wf.description.getD "", wf.parameters.getD [], [], wf.rules⟩
  else
    addWorkflow owner ⟨workflowId, wf.name, wf.description, wf.parameters, wf.rules.getD [], []⟩
  (c.agents .preprocess).forM fun a => addPreprocess owner a workflowId
  (c.agents .context).forM fun a => addContext owner a workflowId
  (c.agents .generation).forM fun a => addGeneration owner a workflowId
  (c.agents .postprocess).forM fun a => addPostprocess owner a workflowId

/-- The rules of the workflow that comes last, which are those of the agent. -/
def storeRules (owner : Owner) (configs : List (String × RetrievalAgentConfig J A D)) :
    Db J A E Unit :=
  match configs.getLast? with
  | some c => setRules owner c.2.rules
  | none => pure ()

/-- What has been exported is stored. -/
def store (owner : Owner) (x : RetrievalAgentExport J A D) : Db J A E Unit := do
  let configs := x.workflowConfigs
  configs.forM fun c => storeWorkflow owner c.1 c.2
  storeRules owner configs
  (collectDrivers configs).forM fun d => addDriver setup.registry owner d.2
  x.prompts.forM fun p => addPrompt owner p

/-- A configuration that is there is deleted, if it may be overwritten. -/
def clearDestination (owner : Owner) (overwrite : Bool)
    (destination : RetrievalAgentConfig J A D) : Db J A E Unit :=
  if destination.isEmpty then pure ()
  else if overwrite then do
    deleteAgent owner
    addAgent owner ⟨none⟩ []
  else throw .invalidTargetAgent

def importConfig (owner : Owner) (file : List UInt8) (passphrase : String) (overwrite : Bool) :
    Db J A E Unit := do
  let destination ← getAgentConfig setup.registry owner "default"
  clearDestination owner overwrite destination
  let x ← result (openFile setup file passphrase)
  mapException (fun _ => .parseExport "Failed to import retrieval agent configuration")
    (store setup owner x)

/-! ## Actions -/

variable {α : Type}

/-- What a method does that writes to the database. -/
inductive Action (J A E : Type)
  | active (owner : Owner) (workflowId : String)
  | write (st : Statement J A E)
  | fail

/-- Whether something is done without an exception, and the world after it. -/
def finish (x : Db J A E α) (w : World J A E) : Bool × World J A E := ((x w).1.toBool, (x w).2)

def Action.perform (w : World J A E) : Action J A E → Bool × World J A E
  | active owner workflowId => finish (ensureWorkflowActive owner workflowId) w
  | write st => finish (execute st) w
  | fail => (false, w)

/-- The actions are taken until one fails. -/
def performAll : List (Action J A E) → World J A E → Bool × World J A E
  | [], w => (true, w)
  | a :: l, w => if (a.perform w).1 then performAll l (a.perform w).2 else (false, (a.perform w).2)

def agentActions (owner : Owner) (workflowId : String) (c : RetrievalAgentConfig J A D)
    (stage : Stage) : List (Action J A E) :=
  (c.agents stage).flatMap fun a =>
    [.active owner workflowId, .write (.insertAgent stage owner workflowId a)]

def workflowActions (owner : Owner) (workflowId : String) (c : RetrievalAgentConfig J A D) :
    List (Action J A E) :=
  (if workflowId = "default" then
    [.active owner workflowId, .write (.setWorkflow owner workflowId
      ⟨c.workflow.name, some (c.workflow.description.getD ""),
        some (c.workflow.parameters.getD []), [], c.workflow.rules.getD []⟩)]
  else
    [.write (.insertWorkflow owner workflowId ⟨c.workflow.name, c.workflow.description,
      c.workflow.parameters, [], c.workflow.rules.getD []⟩)]) ++
  (agentActions owner workflowId c .preprocess ++ (agentActions owner workflowId c .context ++
    (agentActions owner workflowId c .generation ++ agentActions owner workflowId c .postprocess)))

def rulesActions (owner : Owner) (configs : List (String × RetrievalAgentConfig J A D)) :
    List (Action J A E) :=
  configs.getLast?.toList.map fun c => .write (.setRules owner c.2.rules)

def driverActions (owner : Owner) (configs : List (String × RetrievalAgentConfig J A D)) :
    List (Action J A E) :=
  (collectDrivers configs).map fun d => .write (.insertDriver owner d.2.name d.2.provider
    d.2.identifier (setup.registry.encryptFields d.2.config))

def storeActions (owner : Owner) (x : RetrievalAgentExport J A D) : List (Action J A E) :=
  (x.workflowConfigs.flatMap fun c => workflowActions owner c.1 c.2) ++
    (rulesActions owner x.workflowConfigs ++
      (driverActions setup owner x.workflowConfigs ++
        x.prompts.map fun p => .write (.insertPrompt owner p)))

def overwriteActions (owner : Owner) : List (Action J A E) :=
  [.write (.deleteConfig owner), .write (.insertConfig owner [] ⟨none⟩),
    .write (.insertWorkflow owner "default"
      ⟨"default", some "Default workflow", some [], [], []⟩)]

def clearActions (owner : Owner) (overwrite : Bool) (destination : RetrievalAgentConfig J A D) :
    List (Action J A E) :=
  if destination.isEmpty then []
  else if overwrite then overwriteActions owner
  else [.fail]

def fileActions (owner : Owner) (file : List UInt8) (passphrase : String) :
    List (Action J A E) :=
  match openFile setup file passphrase with
  | .ok x => storeActions setup owner x
  | .error _ => [.fail]

/-- The actions of an import, where the configuration that is there has been read. -/
def importActions (owner : Owner) (file : List UInt8) (passphrase : String) (overwrite : Bool)
    (destination : RetrievalAgentConfig J A D) : List (Action J A E) :=
  clearActions owner overwrite destination ++ fileActions setup owner file passphrase

section Performs

/-- Something is done by taking the actions. -/
def Performs (x : Db J A E α) (l : List (Action J A E)) : Prop := ∀ w, finish x w = performAll l w

variable {x : Db J A E α} {β γ : Type} {y : Db J A E β} {l l' : List (Action J A E)}
  {w : World J A E}

theorem performAll_append (l l' : List (Action J A E)) (w : World J A E) :
    performAll (l ++ l') w = if (performAll l w).1 then performAll l' (performAll l w).2
      else (false, (performAll l w).2) := by
  induction l generalizing w with
  | nil => rfl
  | cons a l ih =>
    rw [List.cons_append, performAll, performAll]
    split_ifs <;> simp_all

theorem finish_bind {f : α → Db J A E β} : finish (x >>= f) w =
    match x w with
    | (.ok a, w') => finish (f a) w'
    | (.error _, w') => (false, w') := by
  rcases hx : x w with ⟨_ | a, w'⟩
  · rw [finish, bind_error hx]
    rfl
  · rw [finish, bind_ok hx]
    rfl

theorem performs_pure (a : α) : Performs (pure a : Db J A E α) [] := fun _ => rfl

theorem performs_fail (e : Error) : Performs (throw e : Db J A E α) [.fail] := fun _ => rfl

theorem Performs.bind {f : α → Db J A E β} (h : Performs x l) (hf : ∀ a, Performs (f a) l') :
    Performs (x >>= f) (l ++ l') := by
  intro w
  rw [finish_bind, performAll_append, ← h w, finish]
  rcases x w with ⟨_ | a, w'⟩
  · rfl
  · exact hf a w'

theorem performs_forM {f : γ → Db J A E PUnit} {g : γ → List (Action J A E)} {cs : List γ}
    (h : ∀ c ∈ cs, Performs (f c) (g c)) : Performs (cs.forM f) (cs.flatMap g) := by
  induction cs with
  | nil => exact performs_pure _
  | cons c cs ih =>
    rw [List.flatMap_cons]
    exact (h c List.mem_cons_self).bind fun _ => ih fun d hd => h d (List.mem_cons_of_mem _ hd)

theorem performs_execute (st : Statement J A E) : Performs (execute st) [.write st] := by
  intro w
  rw [performAll, Action.perform]
  cases h : (finish (execute st) w).1 with
  | false => exact Prod.ext h rfl
  | true => exact Prod.ext h rfl

theorem performs_active (owner : Owner) (workflowId : String) :
    Performs (ensureWorkflowActive owner workflowId : Db J A E Unit)
      [.active owner workflowId] := by
  intro w
  rw [performAll, Action.perform]
  cases h : (finish (ensureWorkflowActive owner workflowId) w).1 with
  | false => exact Prod.ext h rfl
  | true => exact Prod.ext h rfl

theorem Performs.mapException (h : Performs x l) (f : Error → Error) :
    Performs (mapException f x) l := by
  intro w
  rw [← h w, finish, finish, Database.mapException]
  rcases x w with ⟨_ | a, w'⟩ <;> rfl

theorem performs_addToStage (stage : Stage) (owner : Owner) (workflowId : String) (as : List A) :
    Performs (as.forM fun a => addToStage stage owner a workflowId : Db J A E PUnit)
      (as.flatMap fun a =>
        [.active owner workflowId, .write (.insertAgent stage owner workflowId a)]) :=
  performs_forM fun _ _ => (performs_active owner workflowId).bind fun _ => performs_execute _

theorem performs_storeWorkflow (owner : Owner) (workflowId : String)
    (c : RetrievalAgentConfig J A D) :
    Performs (storeWorkflow owner workflowId c : Db J A E Unit)
      (workflowActions owner workflowId c) := by
  have hagents : Performs (E := E) (J := J) _ _ :=
    (performs_addToStage .preprocess owner workflowId (c.agents .preprocess)).bind fun _ =>
    (performs_addToStage .context owner workflowId (c.agents .context)).bind fun _ =>
    (performs_addToStage .generation owner workflowId (c.agents .generation)).bind fun _ =>
    performs_addToStage .postprocess owner workflowId (c.agents .postprocess)
  rw [storeWorkflow, workflowActions]
  split_ifs with hdefault
  · exact ((performs_active owner workflowId).bind fun _ => performs_execute _).bind fun _ =>
      hagents
  · exact (performs_execute _).bind fun _ => hagents

theorem performs_store (owner : Owner) (x : RetrievalAgentExport J A D) :
    Performs (store setup owner x) (storeActions setup owner x) := by
  refine (performs_forM fun c _ => performs_storeWorkflow owner c.1 c.2).bind fun _ => ?_
  have hrules : Performs (storeRules owner x.workflowConfigs : Db J A E Unit)
      (rulesActions owner x.workflowConfigs) := by
    rw [storeRules, rulesActions]
    cases x.workflowConfigs.getLast? with
    | none => exact performs_pure _
    | some c => exact performs_execute _
  refine hrules.bind fun _ => ?_
  rw [driverActions, ← List.flatMap_pure_eq_map, ← List.flatMap_pure_eq_map]
  exact (performs_forM fun _ _ => performs_execute _).bind fun _ =>
    performs_forM fun _ _ => performs_execute _

theorem performs_clearDestination (owner : Owner) (overwrite : Bool)
    (destination : RetrievalAgentConfig J A D) :
    Performs (clearDestination owner overwrite destination : Db J A E Unit)
      (clearActions owner overwrite destination) := by
  rw [clearDestination, clearActions]
  split_ifs
  · exact performs_pure _
  · exact (performs_execute _).bind fun _ => (performs_execute _).bind fun _ =>
      performs_execute _
  · exact performs_fail _

/-- What an import does once it has read the configuration that is there. -/
theorem performs_importConfig (owner : Owner) (file : List UInt8) (passphrase : String)
    (overwrite : Bool) (w : World J A E) :
    finish (importConfig setup owner file passphrase overwrite) w =
      match getAgentConfig setup.registry owner "default" w with
      | (.ok destination, w') =>
        performAll (importActions setup owner file passphrase overwrite destination) w'
      | (.error _, w') => (false, w') := by
  rw [importConfig, finish_bind]
  rcases getAgentConfig setup.registry owner "default" w with ⟨_ | destination, w'⟩
  · rfl
  refine ((performs_clearDestination owner overwrite destination).bind fun _ => ?_) w'
  rw [fileActions]
  rcases openFile setup file passphrase with e | x
  · exact performs_fail e
  · exact (performs_store setup owner x).mapException _

end Performs

end Hyperforge.Database
