import Hyperforge.Library.Query
import Hyperforge.Models
import Mathlib.Data.List.Nodup
import Mathlib.Logic.Function.Basic

/-!
# The tables of the database

The agents of all accounts are in the same tables. A row of any of them names the account and the
agent that it is of, and refers to the row of the agent in `retrieval_agent_config`, or to that of
one of its workflows (`Tables.Valid`).

A statement changes the tables, or fails if a constraint is violated (`Statement.exec`); what it
leaves is valid again (`Valid.exec`).
-/

namespace Hyperforge.Database

/-- The stages of a workflow, each with a table for its agents. -/
inductive Stage
  | preprocess
  | context
  | generation
  | postprocess
deriving DecidableEq

/-- An account and the identifier of one of its agents. -/
structure Owner where
  account : String
  agentId : String
deriving DecidableEq

/-- A row of `retrieval_agent_config`. -/
structure ConfigRow where
  owner : Owner
  rules : List Rule
  memory : MemoryConfig
deriving DecidableEq

/-- A row of `retrieval_agent_workflow`. -/
structure WorkflowRow (J : Type) where
  owner : Owner
  workflowId : String
  name : String
  description : Option String
  parameters : Option (List (String × J))
  required : List String
  rules : List Rule
  isDeleted : Bool
deriving DecidableEq

/-- A row of the table of a stage. -/
structure AgentRow (A : Type) where
  id : ℕ
  owner : Owner
  workflowId : String
  config : A
deriving DecidableEq

/-- A row of `retrieval_agents_drivers`, its configuration encrypted. -/
structure DriverRow (E : Type) where
  id : ℕ
  owner : Owner
  driver : String
  provider : String
  identifier : String
  config : E
deriving DecidableEq

/-- A row of `retrieval_agent_prompts`. -/
structure PromptRow where
  id : ℕ
  owner : Owner
  name : String
  description : String
  prompt : String
  arguments : Option (List PromptArgument)
  icons : Option (List (String × String))
  metadata : Option (List (String × String))
deriving DecidableEq

structure Tables (J A E : Type) where
  configs : List ConfigRow
  workflows : List (WorkflowRow J)
  agents : Stage → List (AgentRow A)
  drivers : List (DriverRow E)
  prompts : List PromptRow
  /-- What the identifiers to come are counted from. -/
  nextId : ℕ

variable {J A E : Type}

def WorkflowRow.key (w : WorkflowRow J) : Owner × String := (w.owner, w.workflowId)

def AgentRow.key (a : AgentRow A) : Owner × String := (a.owner, a.workflowId)

def DriverRow.key (d : DriverRow E) : Owner × String := (d.owner, d.identifier)

/-- The constraints of the tables. -/
structure Tables.Valid (t : Tables J A E) : Prop where
  configs : (t.configs.map ConfigRow.owner).Nodup
  workflows : (t.workflows.map WorkflowRow.key).Nodup
  drivers : (t.drivers.map DriverRow.key).Nodup
  workflowOwner : ∀ w ∈ t.workflows, w.owner ∈ t.configs.map ConfigRow.owner
  agentWorkflow : ∀ stage, ∀ a ∈ t.agents stage, a.key ∈ t.workflows.map WorkflowRow.key
  driverOwner : ∀ d ∈ t.drivers, d.owner ∈ t.configs.map ConfigRow.owner
  promptOwner : ∀ p ∈ t.prompts, p.owner ∈ t.configs.map ConfigRow.owner
  agentId : ∀ stage, ∀ a ∈ t.agents stage, a.id < t.nextId
  driverId : ∀ d ∈ t.drivers, d.id < t.nextId

/-- No agent at all. -/
def Tables.empty : Tables J A E := ⟨[], [], fun _ => [], [], [], 0⟩

theorem Tables.valid_empty : (Tables.empty : Tables J A E).Valid :=
  ⟨List.nodup_nil, List.nodup_nil, List.nodup_nil, fun _ h => absurd h List.not_mem_nil,
    fun _ _ h => absurd h List.not_mem_nil, fun _ h => absurd h List.not_mem_nil,
    fun _ h => absurd h List.not_mem_nil, fun _ _ h => absurd h List.not_mem_nil,
    fun _ h => absurd h List.not_mem_nil⟩

/-- What is set of a workflow. -/
structure WorkflowValues (J : Type) where
  name : String
  description : Option String
  parameters : Option (List (String × J))
  required : List String
  rules : List Rule
deriving DecidableEq

/-- Statements that change the tables. -/
inductive Statement (J A E : Type)
  | insertConfig (owner : Owner) (rules : List Rule) (memory : MemoryConfig)
  | deleteConfig (owner : Owner)
  | setRules (owner : Owner) (rules : List Rule)
  | insertWorkflow (owner : Owner) (workflowId : String) (values : WorkflowValues J)
  | setWorkflow (owner : Owner) (workflowId : String) (values : WorkflowValues J)
  | insertAgent (stage : Stage) (owner : Owner) (workflowId : String) (config : A)
  | insertDriver (owner : Owner) (driver provider identifier : String) (config : E)
  | insertPrompt (owner : Owner) (prompt : PromptConfig)

def WorkflowRow.set (w : WorkflowRow J) (v : WorkflowValues J) : WorkflowRow J :=
  { w with
    name := v.name, description := v.description, parameters := v.parameters,
    required := v.required, rules := v.rules }

namespace Tables

/-- The row of a workflow that has not been deleted. -/
def IsActive (owner : Owner) (workflowId : String) (w : WorkflowRow J) : Prop :=
  w.key = (owner, workflowId) ∧ w.isDeleted = false

instance decidableIsActive (owner : Owner) (workflowId : String) :
    DecidablePred (IsActive owner workflowId (J := J)) :=
  fun _ => inferInstanceAs (Decidable (_ ∧ _))

/-- The rows that refer to an agent are deleted with it. -/
def deleteConfig (t : Tables J A E) (owner : Owner) : Tables J A E where
  configs := t.configs.filter (·.owner ≠ owner)
  workflows := t.workflows.filter (·.owner ≠ owner)
  agents stage := (t.agents stage).filter (·.owner ≠ owner)
  drivers := t.drivers.filter (·.owner ≠ owner)
  prompts := t.prompts.filter (·.owner ≠ owner)
  nextId := t.nextId

end Tables

/-- The tables after a statement, if none of their constraints is violated. -/
def Statement.exec (t : Tables J A E) : Statement J A E → Option (Tables J A E)
  | .insertConfig owner rules memory =>
    if owner ∈ t.configs.map ConfigRow.owner then none
    else some { t with configs := t.configs ++ [⟨owner, rules, memory⟩] }
  | .deleteConfig owner => some (t.deleteConfig owner)
  | .setRules owner rules => some { t with
      configs := t.configs.map fun c => if c.owner = owner then { c with rules := rules } else c }
  | .insertWorkflow owner workflowId v =>
    if owner ∈ t.configs.map ConfigRow.owner ∧
        (owner, workflowId) ∉ t.workflows.map WorkflowRow.key then
      some { t with workflows := t.workflows ++
        [⟨owner, workflowId, v.name, v.description, v.parameters, v.required, v.rules, false⟩] }
    else none
  | .setWorkflow owner workflowId v => some { t with
      workflows := t.workflows.map fun w =>
        if Tables.IsActive owner workflowId w then w.set v else w }
  | .insertAgent stage owner workflowId config =>
    if (owner, workflowId) ∈ t.workflows.map WorkflowRow.key then
      some { t with
        agents := Function.update t.agents stage
          (t.agents stage ++ [⟨t.nextId, owner, workflowId, config⟩])
        nextId := t.nextId + 1 }
    else none
  | .insertDriver owner driver provider identifier config =>
    if owner ∈ t.configs.map ConfigRow.owner ∧
        (owner, identifier) ∉ t.drivers.map DriverRow.key then
      some { t with
        drivers := t.drivers ++ [⟨t.nextId, owner, driver, provider, identifier, config⟩]
        nextId := t.nextId + 1 }
    else none
  | .insertPrompt owner p =>
    if owner ∈ t.configs.map ConfigRow.owner then
      some { t with
        prompts := t.prompts ++
          [⟨t.nextId, owner, p.name, p.description, p.prompt, p.arguments, p.icons, p.metadata⟩]
        nextId := t.nextId + 1 }
    else none

section Constraints

variable {t t' : Tables J A E} {owner : Owner}

@[simp]
theorem WorkflowRow.key_set (w : WorkflowRow J) (v : WorkflowValues J) : (w.set v).key = w.key :=
  rfl

/-- Rows that are changed, but not in what they are known by. -/
theorem map_map_of_forall {α β : Type} {f : α → α} {key : α → β} (h : ∀ a, key (f a) = key a)
    (l : List α) : (l.map f).map key = l.map key := by
  rw [List.map_map]
  exact List.map_congr_left fun a _ => h a

theorem mem_filter_owner {α : Type} {f : α → Owner} {l : List α} {o : Owner}
    (h : o ∈ l.map f) (ho : o ≠ owner) : o ∈ (l.filter (f · ≠ owner)).map f := by
  obtain ⟨a, ha, rfl⟩ := List.mem_map.1 h
  exact List.mem_map.2 ⟨a, List.mem_filter.2 ⟨ha, by simpa using ho⟩, rfl⟩

theorem nodup_concat {α : Type} {l : List α} {a : α} (h : l.Nodup) (ha : a ∉ l) :
    (l ++ [a]).Nodup := by
  rw [← List.concat_eq_append, List.nodup_concat]
  exact ⟨ha, h⟩

theorem Tables.Valid.deleteConfig (h : t.Valid) (owner : Owner) : (t.deleteConfig owner).Valid := by
  have hrow {α : Type} {f : α → Owner} {l : List α} {a : α}
      (ha : a ∈ l.filter (f · ≠ owner)) : a ∈ l ∧ f a ≠ owner := by
    simpa using List.mem_filter.1 ha
  have hsub {α β : Type} {f : α → Owner} {g : α → β} {l : List α} (hl : (l.map g).Nodup) :
      ((l.filter (f · ≠ owner)).map g).Nodup := hl.sublist (List.filter_sublist.map g)
  refine ⟨hsub h.configs, hsub h.workflows, hsub h.drivers, fun w hw => ?_, fun stage a ha => ?_,
    fun d hd => ?_, fun p hp => ?_, fun stage a ha => h.agentId stage a (hrow ha).1,
    fun d hd => h.driverId d (hrow hd).1⟩
  · exact mem_filter_owner (h.workflowOwner w (hrow hw).1) (hrow hw).2
  · obtain ⟨w, hw, hkey⟩ := List.mem_map.1 (h.agentWorkflow stage a (hrow ha).1)
    refine List.mem_map.2 ⟨w, List.mem_filter.2 ⟨hw, ?_⟩, hkey⟩
    simpa [(Prod.mk.inj hkey).1] using (hrow ha).2
  · exact mem_filter_owner (h.driverOwner d (hrow hd).1) (hrow hd).2
  · exact mem_filter_owner (h.promptOwner p (hrow hp).1) (hrow hp).2

/-- What a statement leaves meets the constraints. -/
theorem Tables.Valid.exec {st : Statement J A E} (h : t.Valid) (ht : st.exec t = some t') :
    t'.Valid := by
  have hle : t.nextId ≤ t.nextId + 1 := Nat.le_succ _
  have hold {α : Type} {f : α → Owner} {l : List α} {c : ConfigRow}
      (hl : ∀ a ∈ l, f a ∈ t.configs.map ConfigRow.owner) :
      ∀ a ∈ l, f a ∈ (t.configs ++ [c]).map ConfigRow.owner := fun a ha => by
    rw [List.map_append]
    exact List.mem_append_left _ (hl a ha)
  cases st with
  | insertConfig owner rules memory =>
    rw [Statement.exec] at ht
    split_ifs at ht with howner
    cases ht
    refine { h with
      configs := ?_
      workflowOwner := hold h.workflowOwner
      driverOwner := hold h.driverOwner
      promptOwner := hold h.promptOwner }
    rw [List.map_append]
    exact nodup_concat h.configs howner
  | deleteConfig owner =>
    cases ht
    exact h.deleteConfig owner
  | setRules owner rules =>
    cases ht
    have howners := map_map_of_forall
      (f := fun c : ConfigRow => if c.owner = owner then { c with rules := rules } else c)
      (fun c => show _ = ConfigRow.owner c by split_ifs <;> rfl) t.configs
    refine { h with configs := ?_, workflowOwner := ?_, driverOwner := ?_, promptOwner := ?_ }
    all_goals simp only [howners]
    exacts [h.configs, h.workflowOwner, h.driverOwner, h.promptOwner]
  | insertWorkflow owner workflowId v =>
    rw [Statement.exec] at ht
    split_ifs at ht with hinsert
    cases ht
    refine { h with workflows := ?_, workflowOwner := ?_, agentWorkflow := ?_ }
    · rw [List.map_append]
      exact nodup_concat h.workflows hinsert.2
    · intro w hw
      rcases List.mem_append.1 hw with hw | hw
      · exact h.workflowOwner w hw
      · rw [List.mem_singleton.1 hw]
        exact hinsert.1
    · intro stage a ha
      rw [List.map_append]
      exact List.mem_append_left _ (h.agentWorkflow stage a ha)
  | setWorkflow owner workflowId v =>
    cases ht
    have hkeys := map_map_of_forall
      (f := fun w => if Tables.IsActive owner workflowId w then w.set v else w)
      (fun w => show WorkflowRow.key _ = WorkflowRow.key w by split_ifs <;> rfl) t.workflows
    refine { h with workflows := ?_, workflowOwner := ?_, agentWorkflow := ?_ }
    · simp only [hkeys]
      exact h.workflows
    · intro w hw
      obtain ⟨w', hw', rfl⟩ := List.mem_map.1 hw
      have howner := h.workflowOwner w' hw'
      split_ifs <;> exact howner
    · simp only [hkeys]
      exact h.agentWorkflow
  | insertAgent stage owner workflowId config =>
    rw [Statement.exec] at ht
    split_ifs at ht with hkey
    cases ht
    have hagents {stage' : Stage} {a : AgentRow A}
        (ha : a ∈ Function.update t.agents stage
          (t.agents stage ++ [⟨t.nextId, owner, workflowId, config⟩]) stage') :
        a ∈ t.agents stage' ∨ a = ⟨t.nextId, owner, workflowId, config⟩ := by
      rcases eq_or_ne stage' stage with rfl | hne
      · rw [Function.update_self] at ha
        exact (List.mem_append.1 ha).imp_right List.mem_singleton.1
      · rw [Function.update_of_ne hne] at ha
        exact .inl ha
    refine { h with agentWorkflow := ?_, agentId := ?_, driverId := ?_ }
    · intro stage' a ha
      rcases hagents ha with ha | rfl
      · exact h.agentWorkflow stage' a ha
      · exact hkey
    · intro stage' a ha
      rcases hagents ha with ha | rfl
      · exact Nat.lt_of_lt_of_le (h.agentId stage' a ha) hle
      · exact Nat.lt_succ_self _
    · exact fun d hd => Nat.lt_of_lt_of_le (h.driverId d hd) hle
  | insertDriver owner driver provider identifier config =>
    rw [Statement.exec] at ht
    split_ifs at ht with hinsert
    cases ht
    refine { h with drivers := ?_, driverOwner := ?_, agentId := ?_, driverId := ?_ }
    · rw [List.map_append]
      exact nodup_concat h.drivers hinsert.2
    · intro d hd
      rcases List.mem_append.1 hd with hd | hd
      · exact h.driverOwner d hd
      · rw [List.mem_singleton.1 hd]
        exact hinsert.1
    · exact fun stage a ha => Nat.lt_of_lt_of_le (h.agentId stage a ha) hle
    · intro d hd
      rcases List.mem_append.1 hd with hd | hd
      · exact Nat.lt_of_lt_of_le (h.driverId d hd) hle
      · rw [List.mem_singleton.1 hd]
        exact Nat.lt_succ_self _
  | insertPrompt owner p =>
    rw [Statement.exec] at ht
    split_ifs at ht with howner
    cases ht
    refine { h with promptOwner := ?_, agentId := ?_, driverId := ?_ }
    · intro q hq
      rcases List.mem_append.1 hq with hq | hq
      · exact h.promptOwner q hq
      · rw [List.mem_singleton.1 hq]
        exact howner
    · exact fun stage a ha => Nat.lt_of_lt_of_le (h.agentId stage a ha) hle
    · exact fun d hd => Nat.lt_of_lt_of_le (h.driverId d hd) hle

end Constraints

end Hyperforge.Database
